import NebulaXTrader.Book.Lemmas.PriceLevelTable

/-!
This module contains the levels of a table of prices when one of the two markers is used as a price: `INT64_MIN`, which
marks the empty slots. Its level is in the empty slot at which the search for it ends, and it is lost when another
price takes that slot.
-/

namespace NebulaXTrader

namespace PriceLevelTable

variable {β : Type}

/--
The 64 bit prices but for the marker of the erased levels.
-/
def Usable (price : Int) : Prop := kEmpty ≤ price ∧ price ≤ kInt64Max ∧ price ≠ kTombstone

instance (price : Int) : Decidable (Usable price) := inferInstanceAs (Decidable (_ ∧ _))

theorem Usable.eq_or_valid {price : Int} (h : Usable price) : price = kEmpty ∨ Valid price := by
  unfold Usable kEmpty kTombstone at h
  unfold Valid kEmpty kTombstone
  omega

theorem isPrice_of_ne {price : Int} (he : price ≠ kEmpty) (ht : price ≠ kTombstone) : isPrice price = true := by
  simp [isPrice, he, ht]

variable [Inhabited β]

def level (t : PriceLevelTable β) (price : Int) : β := (t.find price).getD default

variable {t r : PriceLevelTable β} {p q : Int} {i j : Nat}

theorem level_of_search (hs : t.search p = some i) (hp : (t.slots i).price = p) : t.level p = (t.slots i).lvl := by
  unfold level find
  rw [hs]
  dsimp only
  rw [if_pos hp, Option.getD_some]

theorem level_of_search_none (hs : t.search p = none) : t.level p = default := by
  unfold level find
  rw [hs]
  rfl

omit [Inhabited β] in
theorem search_kEmpty_price (hcap : 0 < t.cap) (hs : t.search kEmpty = some i)
    : i < t.cap ∧ (t.slots i).price = kEmpty := by
  obtain ⟨_, _, _, hi, hstop, _⟩ := search_eq_some hcap hs
  exact ⟨hi, hstop.elim id id⟩

/--
What the table keeps besides the number and the extreme of its prices, which mean nothing any more when the marker is
one of them. An empty slot with a level is the slot of the marker's level.
-/
structure Steady (t : PriceLevelTable β) : Prop where
  cap_pos : 0 < t.cap
  placed : Probe.Placed (probe t.cap) t.cap kEmpty kTombstone (fun i => (t.slots i).price)
  valid : ∀ i, i < t.cap → isPrice (t.slots i).price = true → Valid (t.slots i).price
  blank : ∀ i, i < t.cap → (t.slots i).price = kEmpty → t.search kEmpty = some i ∨ (t.slots i).lvl = default

/--
The same slots with the number and the extreme of the prices in them.
-/
def recount (t : PriceLevelTable β) : PriceLevelTable β :=
  { t with count := (List.range t.cap).countP (fun i => isPrice (t.slots i).price) }.rescanBest

omit [Inhabited β] in
theorem recount_find : t.recount.find q = t.find q := rfl

theorem Steady.recount (h : t.Steady) : t.recount.Inv := by
  apply rescanBest_spec
  . exact h.cap_pos
  . exact h.placed
  . exact h.valid
  . rfl

theorem Inv.steady (h : r.Inv) (hslots : t.slots = r.slots) (hcap : t.cap = r.cap)
    (hblank : ∀ i, i < t.cap → (t.slots i).price = kEmpty → t.search kEmpty = some i ∨ (t.slots i).lvl = default)
    : t.Steady := by
  refine ⟨?_, ?_, ?_, hblank⟩
  . rw [hcap]
    exact h.cap_pos
  . rw [hcap, hslots]
    exact h.placed
  . rw [hcap, hslots]
    exact h.valid

theorem Steady.init (isBid : Bool) : (init isBid : PriceLevelTable β).Steady := by
  apply (Inv.init isBid).steady rfl rfl
  intro i _ _
  exact Or.inr rfl

theorem level_init (isBid : Bool) (price : Int) : (init isBid : PriceLevelTable β).level price = default := by
  unfold level find
  split
  . split
    . rfl
    . rfl
  . rfl

section Thins

/--
No slot has become empty.
-/
structure Thins (t r : PriceLevelTable β) : Prop where
  cap : r.cap = t.cap
  slots : ∀ i, (r.slots i).price = kEmpty → r.slots i = t.slots i

omit [Inhabited β] in
theorem Thins.search (h : Thins t r) (hcap : 0 < t.cap) (hs : t.search kEmpty = some i)
    (hi : (r.slots i).price = kEmpty) : r.search kEmpty = some i := by
  obtain ⟨n, hn, hin, _, _, hbefore⟩ := search_eq_some hcap hs
  unfold PriceLevelTable.search
  rw [h.cap, hin]
  apply Probe.scan_of_first (probe_lt hcap kEmpty) hn
  . rw [← hin]
    simp [hi]
  . intro m hm
    have hne := hbefore m hm
    have hne' : (r.slots ((probe t.cap kEmpty + m) % t.cap)).price ≠ kEmpty := by
      intro he
      rw [h.slots _ he] at he
      exact hne he
    simp [hne']

theorem Thins.blank (h : Thins t r) (ht : t.Steady) (hi : i < r.cap) (he : (r.slots i).price = kEmpty)
    : r.search kEmpty = some i ∨ (r.slots i).lvl = default := by
  have heq := h.slots i he
  rw [h.cap] at hi
  have he' := he
  rw [heq] at he'
  cases ht.blank i hi he' with
  | inl hs => exact Or.inl (h.search ht.cap_pos hs he)
  | inr hd =>
    rw [heq]
    exact Or.inr hd

theorem Thins.level (h : Thins t r) (ht : t.Steady)
    : r.level kEmpty = t.level kEmpty ∨ r.level kEmpty = default := by
  have hcap : 0 < r.cap := by
    rw [h.cap]
    exact ht.cap_pos
  cases hs : r.search kEmpty with
  | none => exact Or.inr (level_of_search_none hs)
  | some i =>
    obtain ⟨hi, he⟩ := search_kEmpty_price hcap hs
    rw [level_of_search hs he]
    have heq := h.slots i he
    rw [h.cap] at hi
    have he' := he
    rw [heq] at he' ⊢
    cases ht.blank i hi he' with
    | inl hs' => exact Or.inl (level_of_search hs' he').symm
    | inr hd => exact Or.inr hd

end Thins

section Access

omit [Inhabited β] in
theorem rehash_eq (cap : Nat) (ns : Nat → Slot β) (s : Slot β)
    : rehash cap ns s = ns ∨ ∃ i, rehash cap ns s = Function.update ns i s := by
  unfold rehash
  split
  . next i _ => exact Or.inr ⟨i, rfl⟩
  . exact Or.inl rfl

theorem grow_empty (t : PriceLevelTable β) (i : Nat) (he : (t.grow.slots i).price = kEmpty)
    : t.grow.slots i = { price := kEmpty, lvl := default } := by
  have key : ∀ (l : List Nat) (ns : Nat → Slot β),
      (∀ i, (ns i).price = kEmpty → ns i = { price := kEmpty, lvl := default }) →
      ∀ i, ((l.foldl
          (fun ns i => if isPrice (t.slots i).price then rehash (t.cap * 2) ns (t.slots i) else ns) ns) i).price =
            kEmpty →
        (l.foldl
          (fun ns i => if isPrice (t.slots i).price then rehash (t.cap * 2) ns (t.slots i) else ns) ns) i =
            { price := kEmpty, lvl := default } := by
    intro l
    induction l with
    | nil =>
      intro ns hns
      exact hns
    | cons k l ih =>
      intro ns hns
      rw [List.foldl_cons]
      apply ih
      split
      . next hk =>
        intro i he
        cases rehash_eq (t.cap * 2) ns (t.slots k) with
        | inl heq =>
          rw [heq] at he ⊢
          exact hns i he
        | inr heq =>
          obtain ⟨j, heq⟩ := heq
          rw [heq] at he ⊢
          by_cases hij : i = j
          . rw [hij, Function.update_self] at he
            exact absurd he (ne_of_isPrice hk).1
          . rw [Function.update_of_ne hij] at he ⊢
            exact hns i he
      . exact hns
  exact key (List.range t.cap) _ (fun _ _ => rfl) i he

theorem access_empties (t : PriceLevelTable β) (hp : p ≠ kEmpty)
    : Thins t (t.access p).1 ∨
      ∀ i, ((t.access p).1.slots i).price = kEmpty → ((t.access p).1.slots i).lvl = default := by
  -- A call of `operator[]` at a price leaves the empty slots alone, or it has rebuilt the table.
  have hplace : ∀ (t' : PriceLevelTable β) (k : Nat),
      (t'.place p k).cap = t'.cap ∧
        ∀ i, ((t'.place p k).slots i).price = kEmpty → (t'.place p k).slots i = t'.slots i := by
    intro t' k
    unfold place
    rw [raiseBest_cap, raiseBest_slots]
    refine ⟨rfl, ?_⟩
    intro i he
    dsimp only at he ⊢
    by_cases hik : i = k
    . subst hik
      rw [Function.update_self] at he
      exact absurd he hp
    . exact Function.update_of_ne hik _ _
  unfold access
  split
  . next i _ =>
    apply Or.inl
    split
    . refine ⟨raiseBest_cap, ?_⟩
      intro j _
      rw [raiseBest_slots]
    . have h := hplace t ((t.freeSlot p).getD i)
      exact ⟨h.1, h.2⟩
  . apply Or.inr
    intro i he
    have h := (hplace t.grow ((t.grow.freeSlot p).getD 0)).2 i he
    dsimp only at he ⊢
    rw [h] at he ⊢
    rw [grow_empty t i he]

theorem access_congr (hslots : r.slots = t.slots) (hcap : r.cap = t.cap) (price : Int)
    : (r.access price).1.slots = (t.access price).1.slots ∧ (r.access price).1.cap = (t.access price).1.cap ∧
      (r.access price).2 = (t.access price).2 := by
  have hsearch : r.search price = t.search price := by
    unfold PriceLevelTable.search
    rw [hslots, hcap]
  have hfree : r.freeSlot price = t.freeSlot price := by
    unfold PriceLevelTable.freeSlot
    rw [hslots, hcap]
  have hgrow : r.grow.slots = t.grow.slots ∧ r.grow.cap = t.grow.cap := by
    unfold PriceLevelTable.grow
    rw [hslots, hcap]
    exact ⟨rfl, rfl⟩
  have hfree' : r.grow.freeSlot price = t.grow.freeSlot price := by
    unfold PriceLevelTable.freeSlot
    rw [hgrow.1, hgrow.2]
  unfold access
  rw [hsearch]
  cases t.search price with
  | none =>
    dsimp only
    rw [hfree']
    unfold place
    simp [hgrow.1, hgrow.2]
  | some i =>
    dsimp only
    rw [hslots, hfree]
    split
    . simp [hslots, hcap]
    . unfold place
      simp [hslots, hcap]

/--
What `operator[]` returns: the slot at which the search for the price ends now, with the level of the price. Another
price keeps its level or has none any more.
-/
structure Reached (t : PriceLevelTable β) (p : Int) (r : PriceLevelTable β × Nat) : Prop where
  steady : r.1.Steady
  search : r.1.search p = some r.2
  price : (r.1.slots r.2).price = p
  lvl : (r.1.slots r.2).lvl = t.level p
  other : ∀ q, q ≠ kTombstone → q ≠ p → r.1.level q = t.level q ∨ r.1.level q = default

theorem Steady.access_valid (h : t.Steady) (hp : Valid p) : Reached t p (t.access p) := by
  have hacc := h.recount.access hp
  obtain ⟨hslots, hcap, hslot⟩ := access_congr (r := t.recount) (t := t) rfl rfl p
  have hfind : ∀ q, (t.recount.access p).1.find q = (t.access p).1.find q := by
    intro q
    unfold find PriceLevelTable.search
    rw [hslots, hcap]
  have hprice := hacc.price
  have hlvl := hacc.lvl
  rw [hslots, hslot] at hprice hlvl
  have hempty : ((t.access p).1.level kEmpty = t.level kEmpty ∨ (t.access p).1.level kEmpty = default) ∧
      ∀ i, i < (t.access p).1.cap → ((t.access p).1.slots i).price = kEmpty →
        (t.access p).1.search kEmpty = some i ∨ ((t.access p).1.slots i).lvl = default := by
    cases access_empties t hp.ne_kEmpty with
    | inl hthin =>
      refine ⟨hthin.level h, ?_⟩
      intro i hi he
      exact hthin.blank h hi he
    | inr hnew =>
      constructor
      . apply Or.inr
        cases hs : (t.access p).1.search kEmpty with
        | none => exact level_of_search_none hs
        | some i =>
          have hi := search_kEmpty_price (hcap ▸ hacc.inv.cap_pos) hs
          rw [level_of_search hs hi.2]
          exact hnew i hi.2
      . intro i _ he
        exact Or.inr (hnew i he)
  refine ⟨hacc.inv.steady hslots.symm hcap.symm hempty.2, ?_, hprice, ?_, ?_⟩
  . have hstored := hacc.inv.search_slot hacc.lt
    rw [hacc.price, hslot] at hstored
    have hs := hstored hp.isPrice
    unfold PriceLevelTable.search at hs ⊢
    rw [hslots, hcap] at hs
    exact hs
  . exact hlvl
  . intro q hqt hqp
    by_cases hqe : q = kEmpty
    . rw [hqe]
      exact hempty.1
    . have hq := hacc.other q (isPrice_of_ne hqe hqt) hqp
      rw [hfind] at hq
      apply Or.inl
      unfold level
      rw [hq]
      rfl

theorem Steady.access_kEmpty (h : t.Steady) : Reached t kEmpty (t.access kEmpty) := by
  unfold access
  cases hs : t.search kEmpty with
  | some i =>
    have hi := search_kEmpty_price h.cap_pos hs
    dsimp only
    rw [if_pos hi.2]
    have hsearch : ∀ q, (t.raiseBest kEmpty).search q = t.search q := by
      intro q
      unfold PriceLevelTable.search
      rw [raiseBest_slots, raiseBest_cap]
    refine ⟨?_, ?_, ?_, ?_, ?_⟩
    . apply h.recount.steady (t := t.raiseBest kEmpty) raiseBest_slots raiseBest_cap
      intro j hj he
      rw [raiseBest_cap] at hj
      rw [hsearch]
      rw [raiseBest_slots] at he ⊢
      exact h.blank j hj he
    . exact (hsearch kEmpty).trans hs
    . rw [raiseBest_slots]
      exact hi.2
    . rw [raiseBest_slots]
      exact (level_of_search hs hi.2).symm
    . intro q _ _
      apply Or.inl
      unfold level find
      rw [hsearch, raiseBest_slots]
  | none =>
    -- no slot is empty, so the table grows; an empty slot of the new one is returned as it is
    have hcap := h.cap_pos
    have hgrown := h.recount.rehashed
    have hempty := hgrown.exists_empty (show t.cap < t.cap * 2 by omega)
    obtain ⟨i, hi⟩ := exists_freeSlot (p := kEmpty) (show 0 < t.recount.grow.cap from h.recount.grow.cap_pos) hempty
    obtain ⟨n, hn, hin, hlt, hfree, hbefore⟩ := freeSlot_eq_some h.recount.grow.cap_pos hi
    have hfree' : t.grow.freeSlot kEmpty = some i := hi
    have hprice : (t.grow.slots i).price = kEmpty := by
      by_contra hne
      have hp := isPrice_of_ne hne (hgrown.noTomb i hlt)
      rw [show t.grow.slots i = t.recount.grow.slots i from rfl, hfree] at hp
      cases hp
    have hslots : (t.grow.place kEmpty i).slots = t.grow.slots := by
      unfold place
      rw [raiseBest_slots]
      dsimp only
      rw [← grow_empty t i hprice, Function.update_eq_self]
    have hcap' : (t.grow.place kEmpty i).cap = t.grow.cap := by
      unfold place
      rw [raiseBest_cap]
    have hsearch : ∀ q, (t.grow.place kEmpty i).search q = t.recount.grow.search q := by
      intro q
      unfold PriceLevelTable.search
      rw [hslots, hcap']
      rfl
    dsimp only
    rw [hfree', Option.getD_some]
    refine ⟨?_, ?_, ?_, ?_, ?_⟩
    . apply h.recount.grow.steady hslots hcap'
      intro j _ he
      rw [hslots] at he ⊢
      rw [grow_empty t j he]
      exact Or.inr rfl
    . rw [hsearch, hin]
      apply Probe.scan_of_first (probe_lt h.recount.grow.cap_pos kEmpty) hn
      . rw [← hin]
        simp only [Bool.decide_or, Bool.or_self, decide_eq_true_eq]
        exact hprice
      . intro m hm
        have hne := hbefore m hm
        simp only [Bool.decide_or, Bool.or_self, decide_eq_false_iff_not]
        exact hne
    . rw [hslots]
      exact hprice
    . rw [hslots, grow_empty t i hprice, level_of_search_none hs]
    . intro q hqt hqe
      have hfind := h.recount.grow_find (isPrice_of_ne hqe hqt)
      apply Or.inl
      unfold level
      rw [← recount_find (t := t), ← hfind]
      unfold find
      rw [hsearch, hslots]
      rfl

theorem Steady.access (h : t.Steady) (hp : Usable p) : Reached t p (t.access p) := by
  cases hp.eq_or_valid with
  | inl he =>
    rw [he]
    exact h.access_kEmpty
  | inr hvalid => exact h.access_valid hvalid

omit [Inhabited β] in
theorem modifyLvl_search (t : PriceLevelTable β) (i : Nat) (f : β → β) (q : Int)
    : (t.modifyLvl i f).search q = t.search q := by
  unfold PriceLevelTable.search
  simp only [modifyLvl_price]
  rfl

theorem modifyLvl_level (t : PriceLevelTable β) (f : β → β) (hq : q ≠ (t.slots i).price)
    : (t.modifyLvl i f).level q = t.level q := by
  unfold level find
  rw [modifyLvl_search]
  cases t.search q with
  | none => rfl
  | some j =>
    dsimp only
    rw [modifyLvl_price]
    split
    . next hj =>
      have hji : j ≠ i := by
        intro heq
        rw [heq] at hj
        exact hq hj.symm
      simp [modifyLvl, hji]
    . rfl

theorem Reached.write {r : PriceLevelTable β × Nat} (h : Reached t p r) (f : β → β)
    : (r.1.modifyLvl r.2 f).Steady ∧ (r.1.modifyLvl r.2 f).level p = f (t.level p) ∧
      ∀ q, q ≠ kTombstone → q ≠ p →
        (r.1.modifyLvl r.2 f).level q = t.level q ∨ (r.1.modifyLvl r.2 f).level q = default := by
  refine ⟨?_, ?_, ?_⟩
  . refine ⟨h.steady.cap_pos, ?_, ?_, ?_⟩
    . simp only [modifyLvl_price]
      exact h.steady.placed
    . simp only [modifyLvl_price]
      exact h.steady.valid
    . intro j hj he
      rw [modifyLvl_search]
      rw [modifyLvl_price] at he
      by_cases hjr : j = r.2
      . apply Or.inl
        rw [hjr] at he ⊢
        rw [← he, h.price]
        exact h.search
      . have hslot : (r.1.modifyLvl r.2 f).slots j = r.1.slots j := Function.update_of_ne hjr _ _
        rw [hslot]
        exact h.steady.blank j hj he
  . have hsearch : (r.1.modifyLvl r.2 f).search p = some r.2 := by
      rw [modifyLvl_search]
      exact h.search
    rw [level_of_search hsearch]
    . simp [modifyLvl, h.lvl]
    . rw [modifyLvl_price]
      exact h.price
  . intro q hqt hqp
    rw [modifyLvl_level]
    . exact h.other q hqt hqp
    . rw [h.price]
      exact hqp

end Access

section Erase

/--
The level in the slot `i` was erased.
-/
structure Erased (t r : PriceLevelTable β) (i : Nat) : Prop where
  cap : r.cap = t.cap
  slots : r.slots = Function.update t.slots i { t.slots i with price := kTombstone }

omit [Inhabited β] in
theorem erase_cases (t : PriceLevelTable β) (p : Int)
    : (t.erase p = t ∧ ∀ i, t.search p = some i → (t.slots i).price ≠ p) ∨
      ∃ i, t.search p = some i ∧ (t.slots i).price = p ∧ Erased t (t.erase p) i := by
  unfold PriceLevelTable.erase
  split
  . next i hs =>
    split
    . next hp =>
      refine Or.inr ⟨i, hs, hp, ?_⟩
      dsimp only
      split
      . exact ⟨rfl, rfl⟩
      . exact ⟨rfl, rfl⟩
    . next hp =>
      refine Or.inl ⟨rfl, ?_⟩
      intro j hj
      rw [hs, Option.some_inj] at hj
      rw [← hj]
      exact hp
  . next hs =>
    refine Or.inl ⟨rfl, ?_⟩
    intro j hj
    rw [hs] at hj
    cases hj

theorem level_of_not_stored (hs : ∀ i, t.search p = some i → (t.slots i).price ≠ p) : t.level p = default := by
  unfold level find
  split
  . next i hi =>
    rw [if_neg (hs i hi)]
    rfl
  . rfl

omit [Inhabited β] in
theorem Erased.slot_eq (h : Erased t r i) (hj : (r.slots j).price ≠ kTombstone)
    : j ≠ i ∧ r.slots j = t.slots j := by
  have hji : j ≠ i := by
    intro heq
    rw [heq, h.slots, Function.update_self] at hj
    exact hj rfl
  refine ⟨hji, ?_⟩
  rw [h.slots, Function.update_of_ne hji]

omit [Inhabited β] in
theorem Erased.thins (h : Erased t r i) : Thins t r := by
  refine ⟨h.cap, ?_⟩
  intro j he
  apply (h.slot_eq _).2
  rw [he]
  decide

theorem Erased.steady (h : Erased t r i) (ht : t.Steady) : r.Steady := by
  constructor
  . rw [h.cap]
    exact ht.cap_pos
  . have hkeys : (fun j => (r.slots j).price) = Function.update (fun j => (t.slots j).price) i kTombstone := by
      funext j
      rw [h.slots]
      exact bury_price j
    rw [h.cap, hkeys]
    exact ht.placed.erase (by decide) i
  . intro j hj hpj
    have heq := (h.slot_eq (ne_of_isPrice hpj).2).2
    rw [h.cap] at hj
    rw [heq] at hpj ⊢
    exact ht.valid j hj hpj
  . intro j hj he
    exact h.thins.blank ht hj he

theorem Erased.level_self (h : Erased t r i) (ht : t.Steady) (hp : Usable p) (hs : t.search p = some i)
    (hpi : (t.slots i).price = p) : r.level p = default := by
  have hi : i < t.cap := (search_eq_some ht.cap_pos hs).choose_spec.2.2.1
  cases hs' : r.search p with
  | none => exact level_of_search_none hs'
  | some j =>
    have hj : j < r.cap := (search_eq_some (h.steady ht).cap_pos hs').choose_spec.2.2.1
    by_cases hpj : (r.slots j).price = p
    . rw [level_of_search hs' hpj]
      have hne : (r.slots j).price ≠ kTombstone := by
        rw [hpj]
        exact hp.2.2
      obtain ⟨hji, heq⟩ := h.slot_eq hne
      rw [heq] at hpj ⊢
      rw [h.cap] at hj
      by_cases he : p = kEmpty
      . -- the next empty slot has no level, since the marker's level was in the erased one
        rw [he] at hpj hs
        cases ht.blank j hj hpj with
        | inl hsj =>
          rw [hs, Option.some_inj] at hsj
          exact absurd hsj.symm hji
        | inr hd => exact hd
      . have hsame := ht.placed.inj j i hj hi (by rw [hpj]; exact he) (by rw [hpj]; exact hp.2.2)
          (hpj.trans hpi.symm)
        exact absurd hsame hji
    . apply level_of_not_stored
      intro k hk
      rw [hs', Option.some_inj] at hk
      rw [← hk]
      exact hpj

theorem Erased.find_other (h : Erased t r i) (ht : t.Steady) (hq : isPrice q = true) (hqi : q ≠ (t.slots i).price)
    : r.find q = t.find q := by
  have hfind : r.recount.find q = t.recount.find q := by
    ext l
    rw [(h.steady ht).recount.find_eq_some_iff hq, ht.recount.find_eq_some_iff hq]
    constructor
    . intro hex
      obtain ⟨j, hj, hjq, hl⟩ := hex
      have hne : (r.slots j).price ≠ kTombstone := by
        rw [show (r.slots j).price = q from hjq]
        exact (ne_of_isPrice hq).2
      have heq := (h.slot_eq hne).2
      refine ⟨j, h.cap ▸ hj, ?_, ?_⟩
      . exact (congrArg Slot.price heq).symm.trans hjq
      . exact (congrArg Slot.lvl heq).symm.trans hl
    . intro hex
      obtain ⟨j, hj, hjq, hl⟩ := hex
      have hji : j ≠ i := by
        intro heq
        rw [heq] at hjq
        exact hqi hjq.symm
      have heq : r.slots j = t.slots j := by
        rw [h.slots, Function.update_of_ne hji]
      refine ⟨j, h.cap ▸ hj, ?_, ?_⟩
      . exact (congrArg Slot.price heq).trans hjq
      . exact (congrArg Slot.lvl heq).trans hl
  rw [← recount_find, hfind, recount_find]

theorem Steady.erase (h : t.Steady) (hp : Usable p)
    : (t.erase p).Steady ∧ (t.erase p).level p = default ∧
      ∀ q, q ≠ kTombstone → q ≠ p → (t.erase p).level q = t.level q ∨ (t.erase p).level q = default := by
  cases erase_cases t p with
  | inl hnone =>
    rw [hnone.1]
    exact ⟨h, level_of_not_stored hnone.2, fun _ _ _ => Or.inl rfl⟩
  | inr hex =>
    obtain ⟨i, hs, hpi, herased⟩ := hex
    refine ⟨herased.steady h, herased.level_self h hp hs hpi, ?_⟩
    intro q hqt hqp
    by_cases hqe : q = kEmpty
    . rw [hqe]
      exact herased.thins.level h
    . have hqi : q ≠ (t.slots i).price := by
        rw [hpi]
        exact hqp
      apply Or.inl
      unfold level
      rw [herased.find_other h (isPrice_of_ne hqe hqt) hqi]

end Erase

end PriceLevelTable

end NebulaXTrader
