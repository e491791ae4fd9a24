import NebulaXTrader.Lib.Balance
import NebulaXTrader.Lib.Run
import NebulaXTrader.Lib.Wrap

/-!
This module contains the model of `Dispatcher::lookup_or_register` and the theorem that it spreads the locates evenly
over the workers and never moves one.
-/

namespace NebulaXTrader

open Balance (FirstLeast Even)

/--
The array `owner_` of the dispatcher, and the counts that the caller keeps for each worker.
-/
structure Registry where
  owner : Nat → Nat
  registered : Nat → Nat

namespace Registry

def kNone : Nat := 4294967295

def init : Registry where
  owner := fun _ => kNone
  registered := fun _ => 0

/--
The loop over the workers from `i` on. Its counter has 32 bits, so that it is none for `2 ^ 32` workers and more: the
loop does not end.
-/
def scan (nworkers : Nat) (registered : Nat → Nat) (fuel i target tr : Nat) : Option Nat :=
  match fuel with
  | 0 => none
  | fuel + 1 =>
    if i < nworkers then
      if registered i < tr then
        scan nworkers registered fuel ((i + 1) % 2 ^ 32) i (registered i)
      else
        scan nworkers registered fuel ((i + 1) % 2 ^ 32) target tr
    else
      some target

/--
The owner of the locate, and what the call leaves. Only the parser calls it, so the exchange of `owner_[locate]`
finds the `kNone` that has just been loaded.
-/
def lookupOrRegister (nworkers : Nat) (d : Registry) (locate : Nat) : Option (Registry × Nat) :=
  if d.owner locate ≠ kNone then
    some (d, d.owner locate)
  else
    match scan nworkers d.registered (2 ^ 32) 1 0 (d.registered 0) with
    | none => none
    | some target =>
      some ({
        owner := Function.update d.owner locate target
        registered := Function.update d.registered target (Wrap.add (2 ^ 64) (d.registered target) 1)
      }, target)

def step (nworkers : Nat) (d : Registry) (locate : Nat) : Option Registry :=
  (lookupOrRegister nworkers d locate).map (·.1)

variable {n : Nat} {d d' : Registry}

theorem scan_first (hn : n < 2 ^ 32) (registered : Nat → Nat) {fuel i target : Nat} (hi : i ≤ n)
    (hfuel : n - i < fuel) (hleast : FirstLeast registered i target)
    : ∃ k, scan n registered fuel i target (registered target) = some k ∧ FirstLeast registered n k := by
  induction fuel generalizing i target with
  | zero => omega
  | succ fuel ih =>
    unfold scan
    by_cases hlt : i < n
    . have hnext : (i + 1) % 2 ^ 32 = i + 1 := Nat.mod_eq_of_lt (by omega)
      rw [if_pos hlt, hnext]
      by_cases hless : registered i < registered target
      . rw [if_pos hless]
        exact ih (by omega) (by omega) (hleast.replace hless)
      . rw [if_neg hless]
        exact ih (by omega) (by omega) (hleast.keep (by omega))
    . have heq : i = n := by omega
      rw [if_neg hlt]
      rw [heq] at hleast
      exact ⟨target, rfl, hleast⟩

theorem scan_never_ends (hn : 2 ^ 32 ≤ n) (registered : Nat → Nat) (fuel : Nat) {i : Nat} (hi : i < 2 ^ 32)
    (target tr : Nat) : scan n registered fuel i target tr = none := by
  induction fuel generalizing i target tr with
  | zero => rfl
  | succ fuel ih =>
    have hlt : i < n := by omega
    have hnext : (i + 1) % 2 ^ 32 < 2 ^ 32 := Nat.mod_lt _ (by decide)
    unfold scan
    rw [if_pos hlt]
    split
    . exact ih hnext _ _
    . exact ih hnext _ _

/--
What holds after the calls with `locates`.
-/
structure Registers (n : Nat) (locates : List Nat) (d : Registry) : Prop where
  bounded : ∀ l ∈ locates, l < 65536
  owned : ∀ l ∈ locates, d.owner l < n ∧ d.owner l ≠ kNone
  fresh : ∀ l, l ∉ locates → d.owner l = kNone
  total : ∑ w ∈ Finset.range n, d.registered w = locates.toFinset.card
  even : Even d.registered n

theorem Registers.init : Registers n [] init := by
  constructor
  . intro l hl
    cases hl
  . intro l hl
    cases hl
  . intro l hl
    rfl
  . show ∑ w ∈ Finset.range n, 0 = 0
    exact Finset.sum_const_zero
  . intro i j hi hj
    exact Nat.zero_le _

variable {locates : List Nat} {l : Nat}

theorem Registers.card_le (h : Registers n locates d) : locates.toFinset.card ≤ 65536 := by
  have hsub : locates.toFinset ⊆ Finset.range 65536 := by
    intro l hl
    exact Finset.mem_range.2 (h.bounded l (List.mem_toFinset.1 hl))
  have hcard := Finset.card_le_card hsub
  rw [Finset.card_range] at hcard
  exact hcard

theorem Registers.known (h : Registers n locates d) (hl : l ∈ locates)
    : lookupOrRegister n d l = some (d, d.owner l) := if_pos (h.owned l hl).2

theorem Registers.unknown (hpos : 1 ≤ n) (hn : n < 2 ^ 32) (h : Registers n locates d) (hl : l ∉ locates)
    : ∃ k, FirstLeast d.registered n k ∧ lookupOrRegister n d l =
      some (⟨Function.update d.owner l k, Balance.bump d.registered k⟩, k) := by
  -- A new locate goes to the first of the workers with the fewest locates.
  have hfuel : n - 1 < 2 ^ 32 := by omega
  obtain ⟨k, hscan, hleast⟩ := scan_first hn d.registered hpos hfuel FirstLeast.one
  refine ⟨k, hleast, ?_⟩
  have hcount : d.registered k ≤ locates.toFinset.card := by
    rw [← h.total]
    exact Balance.le_sum hleast.lt
  have hcard := h.card_le
  have hnone : ¬ d.owner l ≠ kNone := not_not_intro (h.fresh l hl)
  unfold lookupOrRegister
  rw [if_neg hnone, hscan]
  dsimp only
  rw [Wrap.add_eq_of_lt (by omega), Balance.bump]

theorem Registers.register (hn : n < 2 ^ 32) (h : Registers n locates d) (hl : l ∉ locates) (hword : l < 65536)
    {k : Nat} (hleast : FirstLeast d.registered n k)
    : Registers n (locates ++ [l]) ⟨Function.update d.owner l k, Balance.bump d.registered k⟩ := by
  have hlt := hleast.lt
  constructor
  . intro m hm
    cases List.mem_append.1 hm with
    | inl hm => exact h.bounded m hm
    | inr hm =>
      rw [List.mem_singleton.1 hm]
      exact hword
  . intro m hm
    dsimp only
    by_cases heq : m = l
    . rw [heq, Function.update_self, kNone]
      omega
    . rw [Function.update_of_ne heq]
      apply h.owned
      simpa [heq] using hm
  . intro m hm
    rw [List.mem_append, List.mem_singleton, not_or] at hm
    dsimp only
    rw [Function.update_of_ne hm.2]
    exact h.fresh m hm.1
  . have hnew : l ∉ locates.toFinset := by
      rw [List.mem_toFinset]
      exact hl
    rw [Balance.sum_bump hlt, h.total, List.toFinset_append, List.toFinset_cons, List.toFinset_nil, insert_empty_eq,
      Finset.union_singleton, Finset.card_insert_of_notMem hnew]
  . exact h.even.bump hleast.least

theorem Registers.again (h : Registers n locates d) (hl : l ∈ locates) : Registers n (locates ++ [l]) d := by
  have hsame : ∀ m, m ∈ locates ++ [l] ↔ m ∈ locates := by
    intro m
    rw [List.mem_append, List.mem_singleton, or_iff_left_of_imp]
    intro heq
    rw [heq]
    exact hl
  constructor
  . intro m hm
    exact h.bounded m ((hsame m).1 hm)
  . intro m hm
    exact h.owned m ((hsame m).1 hm)
  . intro m hm
    exact h.fresh m (mt (hsame m).2 hm)
  . have hset : (locates ++ [l]).toFinset = locates.toFinset := by
      ext m
      rw [List.mem_toFinset, List.mem_toFinset, hsame]
    rw [h.total, hset]
  . exact h.even

theorem Registers.lt_of_step (h : Registers n locates d) (hl : l ∉ locates) (hstep : step n d l = some d')
    : n < 2 ^ 32 := by
  by_contra hn
  have hnone : ¬ d.owner l ≠ kNone := not_not_intro (h.fresh l hl)
  unfold step lookupOrRegister at hstep
  rw [if_neg hnone, scan_never_ends (Nat.le_of_not_lt hn) _ _ (by decide)] at hstep
  cases hstep

theorem Registers.step (hpos : 1 ≤ n) (h : Registers n locates d) (hword : l < 65536)
    (hstep : Registry.step n d l = some d')
    : Registers n (locates ++ [l]) d' ∧ ∀ m ∈ locates, d'.owner m = d.owner m := by
  by_cases hl : l ∈ locates
  . unfold Registry.step at hstep
    rw [h.known hl] at hstep
    cases hstep
    refine ⟨h.again hl, ?_⟩
    intro m hm
    rfl
  . have hn := h.lt_of_step hl hstep
    obtain ⟨k, hleast, hcall⟩ := h.unknown hpos hn hl
    unfold Registry.step at hstep
    rw [hcall] at hstep
    cases hstep
    refine ⟨h.register hn hl hword hleast, ?_⟩
    intro m hm
    apply Function.update_of_ne
    intro heq
    rw [heq] at hm
    exact hl hm

theorem Registers.exec (hpos : 1 ≤ n) {after : List Nat} (hafter : ∀ l ∈ after, l < 65536) (h : Registers n locates d)
    (hrun : Run.exec (Registry.step n) d after = some d')
    : Registers n (locates ++ after) d' ∧ ∀ m ∈ locates, d'.owner m = d.owner m := by
  induction after generalizing locates d with
  | nil =>
    cases hrun
    rw [List.append_nil]
    exact ⟨h, fun m hm => rfl⟩
  | cons l after ih =>
    unfold Run.exec at hrun
    split at hrun
    . next d₁ hstep =>
      have hone := h.step hpos (hafter l List.mem_cons_self) hstep
      have hrest := ih (fun m hm => hafter m (List.mem_cons_of_mem l hm)) hone.1 hrun
      rw [List.append_assoc, List.singleton_append] at hrest
      refine ⟨hrest.1, ?_⟩
      intro m hm
      rw [hrest.2 m (List.mem_append_left _ hm), hone.2 m hm]
    . cases hrun

theorem Registers.exec_isSome (hpos : 1 ≤ n) (hn : n < 2 ^ 32) {after : List Nat} (hafter : ∀ l ∈ after, l < 65536)
    (h : Registers n locates d) : ∃ d', Run.exec (Registry.step n) d after = some d' := by
  induction after generalizing locates d with
  | nil => exact ⟨d, rfl⟩
  | cons l after ih =>
    have hreturns : ∃ d₁, Registry.step n d l = some d₁ := by
      unfold Registry.step
      by_cases hl : l ∈ locates
      . rw [h.known hl]
        exact ⟨d, rfl⟩
      . obtain ⟨k, _, hcall⟩ := h.unknown hpos hn hl
        rw [hcall]
        exact ⟨_, rfl⟩
    obtain ⟨d₁, hstep⟩ := hreturns
    have hone := h.step hpos (hafter l List.mem_cons_self) hstep
    unfold Run.exec
    rw [hstep]
    exact ih (fun m hm => hafter m (List.mem_cons_of_mem l hm)) hone.1

/--
What the calls with `locates` leave: each of them has an owner, which is what a call returns, and the counts are even.
-/
structure Balanced (n : Nat) (locates : List Nat) (d : Registry) : Prop where
  owned : ∀ l ∈ locates, d.owner l < n ∧ lookupOrRegister n d l = some (d, d.owner l)
  total : ∑ w ∈ Finset.range n, d.registered w = locates.toFinset.card
  even : ∀ v w, v < n → w < n → d.registered v ≤ d.registered w + 1

/--
The locates of `before` keep their owners whatever calls come after. With fewer than `2 ^ 32` workers every call
returns.
-/
theorem registration_balanced (hpos : 1 ≤ n) (before after : List Nat) (hwords : ∀ l ∈ before ++ after, l < 65536)
    : (∀ d₁ d₂, Run.exec (Registry.step n) init before = some d₁ → Run.exec (Registry.step n) d₁ after = some d₂ →
        Balanced n (before ++ after) d₂ ∧ ∀ l ∈ before, d₂.owner l = d₁.owner l) ∧
      (n < 2 ^ 32 → ∃ d, Run.exec (Registry.step n) init (before ++ after) = some d) := by
  constructor
  . intro d₁ d₂ hbefore hafter
    have hfirst := Registers.init.exec hpos (fun l hl => hwords l (List.mem_append_left _ hl)) hbefore
    have hsecond := hfirst.1.exec hpos (fun l hl => hwords l (List.mem_append_right _ hl)) hafter
    refine ⟨⟨?_, hsecond.1.total, hsecond.1.even⟩, hsecond.2⟩
    intro l hl
    exact ⟨(hsecond.1.owned l hl).1, hsecond.1.known hl⟩
  . intro hn
    exact Registers.init.exec_isSome hpos hn hwords

theorem registration_balanced_three : Balanced 3 [7, 9, 7, 4, 1, 9]
    ((Run.exec (Registry.step 3) init [7, 9, 7, 4, 1, 9]).getD init) := by
  apply (registration_balanced (n := 3) (by decide) [7, 9, 7] [4, 1, 9] (by decide)).1 _ _ rfl rfl |>.1

end Registry

end NebulaXTrader
