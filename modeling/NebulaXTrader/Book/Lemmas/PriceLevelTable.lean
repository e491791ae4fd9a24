import NebulaXTrader.Book.PriceLevelTable
import Mathlib.Data.List.Range

/-!
This module contains the invariant of `PriceLevelTable` and its refinement of a finite map from prices
to levels with a cached extreme.
-/

namespace NebulaXTrader

namespace PriceLevelTable

variable {β : Type}

def Valid (price : Int) : Prop := kTombstone < price ∧ price ≤ kInt64Max

section Better

variable {isBid : Bool} {x y z : Int}

theorem Valid.ne_kEmpty (h : Valid x) : x ≠ kEmpty := by
  unfold Valid kTombstone at h
  unfold kEmpty
  omega

theorem Valid.ne_kTombstone (h : Valid x) : x ≠ kTombstone := by
  unfold Valid at h
  omega

theorem Valid.isPrice (h : Valid x) : isPrice x = true := by
  simp [PriceLevelTable.isPrice, h.ne_kEmpty, h.ne_kTombstone]

theorem ne_of_isPrice (h : isPrice x = true) : x ≠ kEmpty ∧ x ≠ kTombstone := by
  simpa [isPrice] using h

/--
The price on a scale on which the better one is the greater one.
-/
def gain (isBid : Bool) (price : Int) : Int := if isBid then price else -price

theorem better_iff : better isBid x y = true ↔ gain isBid y < gain isBid x := by
  cases isBid with
  | true => simp [better, gain]
  | false => simp [better, gain]

theorem better_false_of_better (x y z : Int) (h1 : better isBid x z = false) (h2 : better isBid y z = true)
    : better isBid x y = false := by
  rw [← Bool.not_eq_true, better_iff] at h1 ⊢
  rw [better_iff] at h2
  omega

theorem better_of_better (x y z : Int) (h1 : better isBid x z = true) (h2 : better isBid y z = false)
    : better isBid x y = true := by
  rw [← Bool.not_eq_true, better_iff] at h2
  rw [better_iff] at h1 ⊢
  omega

@[simp]
theorem better_self : better isBid x x = false := by
  cases isBid with
  | true => simp [better]
  | false => simp [better]

theorem eq_worst_of_not_better (h : Valid x) (hb : better isBid x (worst isBid) = false)
    : x = worst isBid := by
  unfold Valid kTombstone kInt64Max at h
  cases isBid with
  | true =>
    simp only [better, worst, if_true, decide_eq_false_iff_not, kEmpty] at *
    omega
  | false =>
    simp only [better, worst, Bool.false_eq_true, if_false, decide_eq_false_iff_not,
      kInt64Max] at *
    omega

theorem foldl_better (isBid : Bool) (c : Nat → Bool) (k : Nat → Int) (l : List Nat) (b : Int)
    : (∀ i ∈ l, c i = true →
        better isBid (k i)
          (l.foldl (fun b i => if c i ∧ better isBid (k i) b then k i else b) b) = false) ∧
      better isBid b (l.foldl (fun b i => if c i ∧ better isBid (k i) b then k i else b) b) = false ∧
      (l.foldl (fun b i => if c i ∧ better isBid (k i) b then k i else b) b = b ∨
        ∃ i ∈ l, c i = true ∧
          l.foldl (fun b i => if c i ∧ better isBid (k i) b then k i else b) b = k i) := by
  induction l generalizing b with
  | nil => simp
  | cons x l ih =>
    rw [List.foldl_cons]
    obtain ⟨hall, hstart, hmem⟩ := ih (if c x ∧ better isBid (k x) b then k x else b)
    generalize l.foldl _ _ = r at *
    by_cases hx : c x = true ∧ better isBid (k x) b = true
    . rw [if_pos hx] at hstart hmem
      refine ⟨?_, ?_, ?_⟩
      . intro i hi hc
        rw [List.mem_cons] at hi
        cases hi with
        | inl hi => simpa [hi] using hstart
        | inr hi => exact hall i hi hc
      . by_contra hbr
        rw [Bool.not_eq_false] at hbr
        have hkr := better_false_of_better (k x) b r hstart hbr
        rw [hx.2] at hkr
        cases hkr
      . right
        cases hmem with
        | inl h => exact ⟨x, by simp, hx.1, h⟩
        | inr h =>
          obtain ⟨i, hi, hc, hr⟩ := h
          exact ⟨i, by simp [hi], hc, hr⟩
    . rw [if_neg hx] at hstart hmem
      refine ⟨?_, hstart, ?_⟩
      . intro i hi hc
        rw [List.mem_cons] at hi
        cases hi with
        | inl hi =>
          subst hi
          by_contra hbr
          rw [Bool.not_eq_false] at hbr
          have hb : better isBid (k i) b = false := by
            by_contra hb
            rw [Bool.not_eq_false] at hb
            exact hx ⟨hc, hb⟩
          rw [better_of_better (k i) b r hbr hstart] at hb
          cases hb
        | inr hi => exact hall i hi hc
      . cases hmem with
        | inl h => exact Or.inl h
        | inr h =>
          obtain ⟨i, hi, hc, hr⟩ := h
          exact Or.inr ⟨i, by simp [hi], hc, hr⟩

end Better

theorem countP_range_succ_of_change {f g : Nat → Bool} {n j : Nat} (hj : j < n)
    (hf : f j = false) (hg : g j = true) (h : ∀ i, i ≠ j → g i = f i)
    : (List.range n).countP g = (List.range n).countP f + 1 := by
  induction n with
  | zero => omega
  | succ n ih =>
    rw [List.range_succ, List.countP_append, List.countP_append]
    by_cases hjn : j = n
    . subst hjn
      have hsame : (List.range j).countP g = (List.range j).countP f := by
        apply List.countP_congr
        intro i hi
        rw [List.mem_range] at hi
        rw [h i (by omega)]
      simp [hsame, hf, hg]
    . have := ih (by omega)
      rw [this]
      have hn := h n (Ne.symm hjn)
      simp only [List.countP_singleton, hn]
      omega

structure Inv (t : PriceLevelTable β) : Prop where
  cap_pos : 0 < t.cap
  placed : Probe.Placed (probe t.cap) t.cap kEmpty kTombstone (fun i => (t.slots i).price)
  valid : ∀ i, i < t.cap → isPrice (t.slots i).price = true → Valid (t.slots i).price
  count_eq : t.count = (List.range t.cap).countP (fun i => isPrice (t.slots i).price)
  best_ge : ∀ i, i < t.cap → isPrice (t.slots i).price = true →
    better t.isBid (t.slots i).price t.best = false
  best_mem : t.best = worst t.isBid ∨
    ∃ i, i < t.cap ∧ isPrice (t.slots i).price = true ∧ t.best = (t.slots i).price

theorem probe_lt {cap : Nat} (h : 0 < cap) (price : Int) : probe cap price < cap := by
  have : probe cap price ≤ cap - 1 := Nat.and_le_right
  omega

section Find

variable {t t' : PriceLevelTable β} {i : Nat} {p q : Int} {l : β}

theorem search_eq_some (hcap : 0 < t.cap) (h : t.search p = some i)
    : ∃ n, n < t.cap ∧ i = (probe t.cap p + n) % t.cap ∧ i < t.cap ∧
        ((t.slots i).price = p ∨ (t.slots i).price = kEmpty) ∧
        ∀ m, m < n → (t.slots ((probe t.cap p + m) % t.cap)).price ≠ kEmpty := by
  obtain ⟨n, hn, hi, hstop, hbefore⟩ := Probe.scan_eq_some (probe_lt hcap p) h
  refine ⟨n, hn, hi, ?_, by simpa using hstop, ?_⟩
  . rw [hi]
    exact Nat.mod_lt _ hcap
  . intro m hm
    have := hbefore m hm
    simp only [decide_eq_false_iff_not, not_or] at this
    exact this.2

theorem exists_of_find (hcap : 0 < t.cap) (h : t.find p = some l)
    : ∃ i, i < t.cap ∧ (t.slots i).price = p ∧ (t.slots i).lvl = l := by
  unfold find at h
  split at h
  . next i hs =>
    split at h
    . next hp =>
      obtain ⟨_, _, _, hi, _⟩ := search_eq_some hcap hs
      exact ⟨i, hi, hp, by simpa using h⟩
    . cases h
  . cases h

theorem Inv.search_slot (h : t.Inv) (hi : i < t.cap) (hp : isPrice (t.slots i).price = true)
    : t.search (t.slots i).price = some i :=
  h.placed.scan_stored hi (ne_of_isPrice hp).1 (ne_of_isPrice hp).2

theorem Inv.find_slot (h : t.Inv) (hi : i < t.cap) (hp : isPrice (t.slots i).price = true)
    : t.find (t.slots i).price = some (t.slots i).lvl := by
  simp [find, h.search_slot hi hp]

theorem Inv.find_eq_some_iff (h : t.Inv) (hp : isPrice p = true)
    : t.find p = some l ↔ ∃ i, i < t.cap ∧ (t.slots i).price = p ∧ (t.slots i).lvl = l := by
  constructor
  . exact exists_of_find h.cap_pos
  . rintro ⟨i, hi, rfl, rfl⟩
    exact h.find_slot hi hp

theorem Inv.find_eq_none_iff (h : t.Inv) (hp : isPrice p = true)
    : t.find p = none ↔ ∀ i, i < t.cap → (t.slots i).price ≠ p := by
  rw [Option.eq_none_iff_forall_ne_some]
  constructor
  . rintro hn i hi rfl
    exact hn _ (h.find_slot hi hp)
  . intro hn l hl
    obtain ⟨i, hi, hpi, _⟩ := exists_of_find h.cap_pos hl
    exact hn i hi hpi

end Find

section Access

variable {t : PriceLevelTable β} {p q : Int} {i : Nat}

@[simp]
theorem raiseBest_slots : (t.raiseBest p).slots = t.slots := by
  unfold raiseBest
  split
  . rfl
  . rfl

@[simp]
theorem raiseBest_cap : (t.raiseBest p).cap = t.cap := by
  unfold raiseBest
  split
  . rfl
  . rfl

@[simp]
theorem raiseBest_isBid : (t.raiseBest p).isBid = t.isBid := by
  unfold raiseBest
  split
  . rfl
  . rfl

@[simp]
theorem raiseBest_count : (t.raiseBest p).count = t.count := by
  unfold raiseBest
  split
  . rfl
  . rfl

theorem raiseBest_best : (t.raiseBest p).best = if better t.isBid p t.best then p else t.best := by
  unfold raiseBest
  split
  . rfl
  . rfl

theorem raiseBest_of_stored (h : t.Inv) (hi : i < t.cap) (hp : isPrice (t.slots i).price = true)
    : t.raiseBest (t.slots i).price = t := by
  simp [raiseBest, h.best_ge i hi hp]

theorem Inv.place [Inhabited β] (h : t.Inv) (hp : Valid p) {n : Nat} (hn : n < t.cap)
    (hnew : ∀ i, i < t.cap → (t.slots i).price ≠ p)
    (hfree : isPrice (t.slots ((probe t.cap p + n) % t.cap)).price = false)
    (hbefore : ∀ m, m < n → (t.slots ((probe t.cap p + m) % t.cap)).price ≠ kEmpty)
    : (t.place p ((probe t.cap p + n) % t.cap)).Inv := by
  have hj : (probe t.cap p + n) % t.cap < t.cap := Nat.mod_lt _ h.cap_pos
  have hins := h.placed.insert hn hp.ne_kEmpty hnew hbefore
  generalize (probe t.cap p + n) % t.cap = j at *
  have hprice : ∀ i, ((t.place p j).slots i).price =
      Function.update (fun i => (t.slots i).price) j p i := by
    intro i
    by_cases hi : i = j
    . subst hi
      simp [PriceLevelTable.place]
    . simp [PriceLevelTable.place, hi]
  have hcap : (t.place p j).cap = t.cap := by simp [PriceLevelTable.place]
  have hbid : (t.place p j).isBid = t.isBid := by simp [PriceLevelTable.place]
  have hbest : (t.place p j).best = if better t.isBid p t.best then p else t.best := by
    simp [PriceLevelTable.place, raiseBest_best]
  refine ⟨?_, ?_, ?_, ?_, ?_, ?_⟩
  . rw [hcap]
    exact h.cap_pos
  . rw [hcap, show (fun i => ((t.place p j).slots i).price) = _ from funext hprice]
    exact hins
  . intro i hi hpi
    rw [hprice] at hpi ⊢
    rw [hcap] at hi
    by_cases hij : i = j
    . subst hij
      simpa using hp
    . rw [Function.update_of_ne hij] at hpi ⊢
      exact h.valid i hi hpi
  . have : (t.place p j).count = t.count + 1 := by simp [PriceLevelTable.place]
    rw [this, hcap, h.count_eq]
    symm
    apply countP_range_succ_of_change hj hfree
    . rw [hprice]
      simpa using hp.isPrice
    . intro i hi
      rw [hprice, Function.update_of_ne hi]
  . intro i hi hpi
    rw [hprice] at hpi ⊢
    rw [hcap] at hi
    rw [hbid, hbest]
    by_cases hij : i = j
    . subst hij
      rw [Function.update_self]
      split
      . simp
      . next hb => simpa using hb
    . rw [Function.update_of_ne hij] at hpi ⊢
      split
      . next hb => exact better_false_of_better _ _ _ (h.best_ge i hi hpi) hb
      . exact h.best_ge i hi hpi
  . right
    rw [hcap, hbest]
    split
    . exact ⟨j, hj, by rw [hprice]; simpa using hp.isPrice, by rw [hprice]; simp⟩
    . next hb =>
      cases h.best_mem with
      | inl hw =>
        rw [Bool.not_eq_true, hw] at hb
        refine ⟨j, hj, by rw [hprice]; simpa using hp.isPrice, ?_⟩
        rw [hprice, Function.update_self, hw]
        exact (eq_worst_of_not_better hp hb).symm
      | inr hm =>
        obtain ⟨i, hi, hpi, hbi⟩ := hm
        have hij : i ≠ j := by
          rintro rfl
          rw [hpi] at hfree
          cases hfree
        refine ⟨i, hi, ?_, ?_⟩
        . rw [hprice, Function.update_of_ne hij]
          exact hpi
        . rw [hprice, Function.update_of_ne hij]
          exact hbi

theorem Inv.place_find [Inhabited β] (h : t.Inv) (hinv : (t.place p i).Inv) (hi : i < t.cap)
    (hfree : isPrice (t.slots i).price = false) (hq : isPrice q = true) (hne : q ≠ p)
    : (t.place p i).find q = t.find q := by
  have hcap : (t.place p i).cap = t.cap := by simp [PriceLevelTable.place]
  have hslots : ∀ j, j ≠ i → (t.place p i).slots j = t.slots j := by
    intro j hj
    simp [PriceLevelTable.place, hj]
  have hself : ((t.place p i).slots i).price = p := by simp [PriceLevelTable.place]
  ext l
  rw [hinv.find_eq_some_iff hq, h.find_eq_some_iff hq, hcap]
  constructor
  . rintro ⟨j, hj, hjq, hl⟩
    have hji : j ≠ i := by
      rintro rfl
      exact hne (hjq.symm.trans hself)
    rw [hslots j hji] at hjq hl
    exact ⟨j, hj, hjq, hl⟩
  . rintro ⟨j, hj, hjq, hl⟩
    have hji : j ≠ i := by
      rintro rfl
      rw [hjq, hq] at hfree
      cases hfree
    exact ⟨j, hj, by rw [hslots j hji]; exact hjq, by rw [hslots j hji]; exact hl⟩

theorem freeSlot_eq_some (hcap : 0 < t.cap) (h : t.freeSlot p = some i)
    : ∃ n, n < t.cap ∧ i = (probe t.cap p + n) % t.cap ∧ i < t.cap ∧
        isPrice (t.slots i).price = false ∧
        ∀ m, m < n → (t.slots ((probe t.cap p + m) % t.cap)).price ≠ kEmpty := by
  obtain ⟨n, hn, hi, hstop, hbefore⟩ := Probe.scan_eq_some (probe_lt hcap p) h
  refine ⟨n, hn, hi, ?_, ?_, ?_⟩
  . rw [hi]
    exact Nat.mod_lt _ hcap
  . simp only [decide_eq_true_eq] at hstop
    cases hstop with
    | inl h => simp [isPrice, h]
    | inr h => simp [isPrice, h]
  . intro m hm
    have := hbefore m hm
    simp only [decide_eq_false_iff_not, not_or] at this
    exact this.2

theorem exists_freeSlot (hcap : 0 < t.cap) (h : ∃ i, i < t.cap ∧ (t.slots i).price = kEmpty)
    : ∃ i, t.freeSlot p = some i := by
  cases hs : t.freeSlot p with
  | some i => exact ⟨i, rfl⟩
  | none =>
    obtain ⟨i, hi, he⟩ := h
    obtain ⟨n, hn, hin⟩ := Probe.exists_offset (probe_lt hcap p) hi
    have := Probe.scan_eq_none (probe_lt hcap p) hs n hn
    rw [hin] at this
    simp [he] at this

end Access

section Grow

variable [Inhabited β] {t : PriceLevelTable β} {ns : Nat → Slot β}

structure Rehashed (t : PriceLevelTable β) (k : Nat) (ns : Nat → Slot β) : Prop where
  placed : Probe.Placed (probe (t.cap * 2)) (t.cap * 2) kEmpty kTombstone (fun i => (ns i).price)
  count : (List.range (t.cap * 2)).countP (fun i => isPrice (ns i).price) =
    (List.range k).countP (fun i => isPrice (t.slots i).price)
  noTomb : ∀ i, i < t.cap * 2 → (ns i).price ≠ kTombstone
  old : ∀ j, j < t.cap * 2 → isPrice (ns j).price = true → ∃ i, i < k ∧ ns j = t.slots i
  new : ∀ i, i < k → isPrice (t.slots i).price = true → ∃ j, j < t.cap * 2 ∧ ns j = t.slots i

omit [Inhabited β] in
theorem Rehashed.exists_empty {k : Nat} (h : Rehashed t k ns) (hk : k < t.cap * 2)
    : ∃ i, i < t.cap * 2 ∧ (ns i).price = kEmpty := by
  by_contra hno
  have hall : (List.range (t.cap * 2)).countP (fun i => isPrice (ns i).price) =
      (List.range (t.cap * 2)).length := by
    rw [List.countP_eq_length]
    intro i hi
    rw [List.mem_range] at hi
    have he : (ns i).price ≠ kEmpty := fun he => hno ⟨i, hi, he⟩
    simp [isPrice, he, h.noTomb i hi]
  have hle := List.countP_le_length (p := fun i => isPrice (t.slots i).price) (l := List.range k)
  rw [← h.count, hall, List.length_range, List.length_range] at hle
  omega

omit [Inhabited β] in
theorem Rehashed.step {k : Nat} (h : Rehashed t k ns) (ht : t.Inv) (hk : k < t.cap)
    : Rehashed t (k + 1)
        (if isPrice (t.slots k).price then rehash (t.cap * 2) ns (t.slots k) else ns) := by
  have hcap := ht.cap_pos
  by_cases hp : isPrice (t.slots k).price = true
  . rw [if_pos hp]
    have hlt := probe_lt (show 0 < t.cap * 2 by omega) (t.slots k).price
    have hnew : ∀ j, j < t.cap * 2 → (ns j).price ≠ (t.slots k).price := by
      intro j hj heq
      obtain ⟨i, hi, hji⟩ := h.old j hj (heq ▸ hp)
      rw [hji] at heq
      have := ht.placed.inj i k (by omega) hk (heq ▸ (ne_of_isPrice hp).1)
        (heq ▸ (ne_of_isPrice hp).2) heq
      omega
    cases hs : Probe.scan (fun i => (ns i).price = kEmpty) (t.cap * 2) (t.cap * 2)
        (probe (t.cap * 2) (t.slots k).price) with
    | none =>
      obtain ⟨i, hi, he⟩ := h.exists_empty (by omega)
      obtain ⟨n, hn, hin⟩ := Probe.exists_offset hlt hi
      have := Probe.scan_eq_none hlt hs n hn
      rw [hin] at this
      simp [he] at this
    | some j =>
      obtain ⟨n, hn, hjn, hstop, hbefore⟩ := Probe.scan_eq_some hlt hs
      have hj : j < t.cap * 2 := by
        rw [hjn]
        exact Nat.mod_lt _ (by omega)
      have he : (ns j).price = kEmpty := by simpa using hstop
      have hr : rehash (t.cap * 2) ns (t.slots k) = Function.update ns j (t.slots k) := by
        simp [rehash, hs]
      rw [hr]
      have hprice : (fun i => (Function.update ns j (t.slots k) i).price) =
          Function.update (fun i => (ns i).price) j (t.slots k).price := by
        funext i
        by_cases hi : i = j
        . subst hi
          simp
        . simp [hi]
      refine ⟨?_, ?_, ?_, ?_, ?_⟩
      . rw [hprice, hjn]
        apply h.placed.insert hn (ne_of_isPrice hp).1 hnew
        intro m hm
        simpa using hbefore m hm
      . rw [List.range_succ, List.countP_append, ← h.count]
        simp only [List.countP_singleton, hp, if_true]
        apply countP_range_succ_of_change hj
        . simp [isPrice, he]
        . simpa using hp
        . intro i hi
          simp [hi]
      . intro i hi
        by_cases hij : i = j
        . subst hij
          simpa using (ne_of_isPrice hp).2
        . simpa [hij] using h.noTomb i hi
      . intro i hi hpi
        by_cases hij : i = j
        . subst hij
          exact ⟨k, by omega, by simp⟩
        . rw [Function.update_of_ne hij] at hpi ⊢
          obtain ⟨i', hi', heq⟩ := h.old i hi hpi
          exact ⟨i', by omega, heq⟩
      . intro i hi hpi
        by_cases hik : i = k
        . subst hik
          exact ⟨j, hj, by simp⟩
        . obtain ⟨j', hj', heq⟩ := h.new i (by omega) hpi
          have hne : j' ≠ j := by
            rintro rfl
            rw [heq] at he
            exact (ne_of_isPrice hpi).1 he
          exact ⟨j', hj', by rw [Function.update_of_ne hne]; exact heq⟩
  . rw [if_neg hp]
    refine ⟨h.placed, ?_, h.noTomb, ?_, ?_⟩
    . rw [List.range_succ, List.countP_append, ← h.count]
      simp [hp]
    . intro j hj hpj
      obtain ⟨i, hi, heq⟩ := h.old j hj hpj
      exact ⟨i, by omega, heq⟩
    . intro i hi hpi
      have hik : i ≠ k := by
        rintro rfl
        exact hp hpi
      exact h.new i (by omega) hpi

/--
The new slots of `grow` after the first `k` of the old ones.
-/
def rehashUpTo (t : PriceLevelTable β) (k : Nat) : Nat → Slot β :=
  (List.range k).foldl
    (fun ns i => if isPrice (t.slots i).price then rehash (t.cap * 2) ns (t.slots i) else ns)
    (fun _ => { price := kEmpty, lvl := default })

theorem Inv.rehashedUpTo (h : t.Inv) {k : Nat} (hk : k ≤ t.cap) : Rehashed t k (t.rehashUpTo k) := by
  induction k with
  | zero =>
    have hcap := h.cap_pos
    refine ⟨?_, ?_, ?_, ?_, by omega⟩
    . exact Probe.Placed.init (probe_lt (by omega)) (fun _ _ => rfl)
    . simp [rehashUpTo, isPrice]
    . intro i _
      simp [rehashUpTo, kEmpty, kTombstone]
    . intro j _ hpj
      simp [rehashUpTo, isPrice] at hpj
  | succ k ih =>
    unfold rehashUpTo
    rw [List.range_succ, List.foldl_append]
    exact (ih (by omega)).step h (by omega)

theorem Inv.rehashed (h : t.Inv) : Rehashed t t.cap t.grow.slots := h.rehashedUpTo (Nat.le_refl _)

theorem Inv.rehash_halts (h : t.Inv) {k : Nat} (hk : k ≤ t.cap) (price : Int)
    : (Probe.scan (fun i => (t.rehashUpTo k i).price = kEmpty) (t.cap * 2) (t.cap * 2)
        (probe (t.cap * 2) price)).isSome := by
  have hcap := h.cap_pos
  have hlt := probe_lt (show 0 < t.cap * 2 by omega) price
  obtain ⟨i, hi, he⟩ := (h.rehashedUpTo hk).exists_empty (by omega)
  obtain ⟨n, hn, hin⟩ := Probe.exists_offset hlt hi
  rw [Option.isSome_iff_ne_none]
  intro hnone
  have hstop := Probe.scan_eq_none hlt hnone n hn
  rw [hin] at hstop
  simp [he] at hstop

theorem Inv.grow (h : t.Inv) : t.grow.Inv := by
  have hr := h.rehashed
  have hcap : t.grow.cap = t.cap * 2 := rfl
  refine ⟨?_, ?_, ?_, ?_, ?_, ?_⟩
  . have := h.cap_pos
    omega
  . rw [hcap]
    exact hr.placed
  . intro j hj hp
    obtain ⟨i, hi, heq⟩ := hr.old j hj hp
    rw [heq] at hp ⊢
    exact h.valid i hi hp
  . rw [hcap, hr.count]
    exact h.count_eq
  . intro j hj hp
    obtain ⟨i, hi, heq⟩ := hr.old j hj hp
    rw [heq] at hp ⊢
    exact h.best_ge i hi hp
  . cases h.best_mem with
    | inl hw => exact Or.inl hw
    | inr hm =>
      obtain ⟨i, hi, hp, hb⟩ := hm
      obtain ⟨j, hj, heq⟩ := hr.new i hi hp
      right
      refine ⟨j, hj, ?_, ?_⟩
      . rw [heq]
        exact hp
      . rw [heq]
        exact hb

theorem Inv.grow_find (h : t.Inv) {q : Int} (hq : isPrice q = true) : t.grow.find q = t.find q := by
  have hr := h.rehashed
  ext l
  rw [h.grow.find_eq_some_iff hq, h.find_eq_some_iff hq]
  constructor
  . rintro ⟨j, hj, rfl, rfl⟩
    obtain ⟨i, hi, heq⟩ := hr.old j hj hq
    exact ⟨i, hi, by rw [heq], by rw [heq]⟩
  . rintro ⟨i, hi, rfl, rfl⟩
    obtain ⟨j, hj, heq⟩ := hr.new i hi hq
    exact ⟨j, hj, by rw [heq], by rw [heq]⟩

end Grow

section Operations

variable {t : PriceLevelTable β} {p q : Int} {i : Nat}

structure Accessed [Inhabited β] (t : PriceLevelTable β) (p : Int) (r : PriceLevelTable β × Nat)
    : Prop where
  inv : r.1.Inv
  lt : r.2 < r.1.cap
  price : (r.1.slots r.2).price = p
  lvl : (r.1.slots r.2).lvl = (t.find p).getD default
  isBid : r.1.isBid = t.isBid
  other : ∀ q, isPrice q = true → q ≠ p → r.1.find q = t.find q

theorem Inv.accessed_place [Inhabited β] (h : t.Inv) (hp : Valid p) (hnone : t.find p = none)
    (he : ∃ i, i < t.cap ∧ (t.slots i).price = kEmpty) (d : Nat)
    : Accessed t p (t.place p ((t.freeSlot p).getD d), (t.freeSlot p).getD d) := by
  obtain ⟨j, hj⟩ := exists_freeSlot (p := p) h.cap_pos he
  obtain ⟨n, hn, hjn, hlt, hfree, hbefore⟩ := freeSlot_eq_some h.cap_pos hj
  have hnew := (h.find_eq_none_iff hp.isPrice).1 hnone
  have hinv : (t.place p j).Inv := by
    rw [hjn] at hfree ⊢
    exact h.place hp hn hnew hfree hbefore
  rw [hj, Option.getD_some]
  refine ⟨hinv, ?_, ?_, ?_, ?_, ?_⟩
  . simpa [PriceLevelTable.place] using hlt
  . simp [PriceLevelTable.place]
  . simp [PriceLevelTable.place, hnone]
  . simp [PriceLevelTable.place]
  . intro q hq hne
    exact h.place_find hinv hlt hfree hq hne

theorem Inv.access [Inhabited β] (h : t.Inv) (hp : Valid p) : Accessed t p (t.access p) := by
  unfold PriceLevelTable.access
  split
  . next i hs =>
    obtain ⟨_, _, _, hi, hstop, _⟩ := search_eq_some h.cap_pos hs
    split
    . next hpi =>
      subst hpi
      rw [raiseBest_of_stored h hi hp.isPrice]
      refine ⟨h, hi, rfl, ?_, rfl, fun _ _ _ => rfl⟩
      rw [h.find_slot hi hp.isPrice]
      rfl
    . next hpi =>
      have he : (t.slots i).price = kEmpty := by
        cases hstop with
        | inl h => exact absurd h hpi
        | inr h => exact h
      have hnone : t.find p = none := by simp [find, hs, hpi]
      exact h.accessed_place hp hnone ⟨i, hi, he⟩ i
  . next hs =>
    have hnone : t.find p = none := by simp [find, hs]
    have hcap := h.cap_pos
    have hgrow := h.grow_find hp.isPrice
    have hacc := h.grow.accessed_place hp (hgrow.trans hnone)
      (h.rehashed.exists_empty (by omega)) 0
    refine ⟨hacc.inv, hacc.lt, hacc.price, ?_, hacc.isBid, ?_⟩
    . rw [hacc.lvl, hgrow]
    . intro q hq hne
      rw [hacc.other q hq hne, h.grow_find hq]

theorem modifyLvl_price (f : β → β) (j : Nat)
    : ((t.modifyLvl i f).slots j).price = (t.slots j).price := by
  by_cases hj : j = i
  . subst hj
    simp [modifyLvl]
  . simp [modifyLvl, hj]

theorem Inv.modifyLvl (h : t.Inv) (f : β → β) : (t.modifyLvl i f).Inv := by
  refine ⟨h.cap_pos, ?_, ?_, ?_, ?_, ?_⟩
  . simp only [modifyLvl_price]
    exact h.placed
  . simp only [modifyLvl_price]
    exact h.valid
  . simp only [modifyLvl_price]
    exact h.count_eq
  . simp only [modifyLvl_price]
    exact h.best_ge
  . simp only [modifyLvl_price]
    exact h.best_mem

theorem Inv.modifyLvl_find (h : t.Inv) (hi : i < t.cap) (hpi : (t.slots i).price = p)
    (hp : isPrice p = true) (f : β → β)
    : (t.modifyLvl i f).find p = some (f (t.slots i).lvl) ∧
      ∀ q, isPrice q = true → q ≠ p → (t.modifyLvl i f).find q = t.find q := by
  have hinv := h.modifyLvl (i := i) f
  constructor
  . rw [hinv.find_eq_some_iff hp]
    exact ⟨i, hi, by rw [modifyLvl_price]; exact hpi, by simp [PriceLevelTable.modifyLvl]⟩
  . intro q hq hne
    ext l
    rw [hinv.find_eq_some_iff hq, h.find_eq_some_iff hq]
    have hslot : ∀ j, (t.slots j).price = q → (t.modifyLvl i f).slots j = t.slots j := by
      intro j hj
      have hji : j ≠ i := by
        rintro rfl
        exact hne (hj.symm.trans hpi)
      simp [PriceLevelTable.modifyLvl, hji]
    constructor
    . rintro ⟨j, hj, hjq, hl⟩
      rw [modifyLvl_price] at hjq
      rw [hslot j hjq] at hl
      exact ⟨j, hj, hjq, hl⟩
    . rintro ⟨j, hj, hjq, hl⟩
      refine ⟨j, hj, ?_, ?_⟩
      . rw [modifyLvl_price]
        exact hjq
      . rw [hslot j hjq]
        exact hl

def bury (t : PriceLevelTable β) (i : Nat) : PriceLevelTable β :=
  { t with
    slots := Function.update t.slots i { t.slots i with price := kTombstone }
    count := t.count - 1 }

theorem bury_price (j : Nat)
    : ((t.bury i).slots j).price =
      Function.update (fun j => (t.slots j).price) i kTombstone j := by
  by_cases hj : j = i
  . subst hj
    simp [bury]
  . simp [bury, hj]

theorem rescanBest_spec (hcap : 0 < t.cap)
    (hplaced : Probe.Placed (probe t.cap) t.cap kEmpty kTombstone (fun i => (t.slots i).price))
    (hvalid : ∀ i, i < t.cap → isPrice (t.slots i).price = true → Valid (t.slots i).price)
    (hcount : t.count = (List.range t.cap).countP (fun i => isPrice (t.slots i).price))
    : t.rescanBest.Inv := by
  obtain ⟨hall, _, hmem⟩ := foldl_better t.isBid
    (fun i => isPrice (t.slots i).price) (fun i => (t.slots i).price) (List.range t.cap)
    (worst t.isBid)
  refine ⟨hcap, hplaced, hvalid, hcount, ?_, ?_⟩
  . intro i hi hp
    exact hall i (List.mem_range.2 hi) hp
  . cases hmem with
    | inl h => exact Or.inl h
    | inr h =>
      obtain ⟨i, hi, hp, hb⟩ := h
      exact Or.inr ⟨i, List.mem_range.1 hi, hp, hb⟩

theorem Inv.erase_inv (h : t.Inv) (hi : i < t.cap) (hp : isPrice (t.slots i).price = true)
    : (t.erase (t.slots i).price).Inv := by
  have heq : t.erase (t.slots i).price =
      if (t.slots i).price = t.best then (t.bury i).rescanBest else t.bury i := by
    simp [PriceLevelTable.erase, h.search_slot hi hp, bury]
  have hplaced : Probe.Placed (probe t.cap) t.cap kEmpty kTombstone
      (fun j => ((t.bury i).slots j).price) := by
    simp only [bury_price]
    exact h.placed.erase (by decide) i
  have hkeep : ∀ j, isPrice ((t.bury i).slots j).price = true →
      j ≠ i ∧ ((t.bury i).slots j).price = (t.slots j).price := by
    intro j hpj
    have hji : j ≠ i := by
      rintro rfl
      rw [bury_price, Function.update_self] at hpj
      simp [isPrice] at hpj
    exact ⟨hji, by rw [bury_price, Function.update_of_ne hji]⟩
  have hvalid : ∀ j, j < t.cap → isPrice ((t.bury i).slots j).price = true →
      Valid ((t.bury i).slots j).price := by
    intro j hj hpj
    have := (hkeep j hpj).2
    rw [this] at hpj ⊢
    exact h.valid j hj hpj
  have hcount : t.count - 1 =
      (List.range t.cap).countP (fun j => isPrice ((t.bury i).slots j).price) := by
    have := countP_range_succ_of_change (f := fun j => isPrice ((t.bury i).slots j).price)
      (g := fun j => isPrice (t.slots j).price) hi
      (by simp [bury_price, isPrice]) hp
      (by
        intro j hj
        simp [bury_price, hj])
    rw [h.count_eq, this]
    omega
  rw [heq]
  split
  . exact rescanBest_spec h.cap_pos hplaced hvalid hcount
  . next hbest =>
    refine ⟨h.cap_pos, hplaced, hvalid, hcount, ?_, ?_⟩
    . intro j hj hpj
      have := (hkeep j hpj).2
      rw [this] at hpj ⊢
      exact h.best_ge j hj hpj
    . cases h.best_mem with
      | inl hw => exact Or.inl hw
      | inr hm =>
        obtain ⟨j, hj, hpj, hb⟩ := hm
        have hji : j ≠ i := by
          rintro rfl
          exact hbest hb.symm
        right
        refine ⟨j, hj, ?_, ?_⟩
        . rw [bury_price, Function.update_of_ne hji]
          exact hpj
        . rw [bury_price, Function.update_of_ne hji]
          exact hb

theorem erase_slots (t : PriceLevelTable β) (p : Int)
    : (t.erase p).cap = t.cap ∧ (t.erase p).isBid = t.isBid ∧
      ∀ j, (t.slots j).price ≠ p → (t.erase p).slots j = t.slots j := by
  unfold PriceLevelTable.erase
  split
  . next i hs =>
    split
    . next hp =>
      have hslot : ∀ j, (t.slots j).price ≠ p → (t.bury i).slots j = t.slots j := by
        intro j hj
        have hji : j ≠ i := by
          rintro rfl
          exact hj hp
        simp [bury, hji]
      simp only
      split
      . exact ⟨rfl, rfl, hslot⟩
      . exact ⟨rfl, rfl, hslot⟩
    . exact ⟨rfl, rfl, fun _ _ => rfl⟩
  . exact ⟨rfl, rfl, fun _ _ => rfl⟩

theorem erase_of_find_none (h : t.find p = none) : t.erase p = t := by
  unfold find at h
  unfold PriceLevelTable.erase
  split
  . next i hs =>
    rw [hs] at h
    simp only at h
    split
    . next hp =>
      rw [if_pos hp] at h
      cases h
    . rfl
  . rfl

theorem Inv.erase (h : t.Inv) (hp : isPrice p = true)
    : (t.erase p).Inv ∧ (t.erase p).find p = none ∧
      ∀ q, isPrice q = true → q ≠ p → (t.erase p).find q = t.find q := by
  cases hf : t.find p with
  | none =>
    rw [erase_of_find_none hf]
    exact ⟨h, hf, fun _ _ _ => rfl⟩
  | some l =>
    obtain ⟨i, hi, rfl, _⟩ := exists_of_find h.cap_pos hf
    have hinv := h.erase_inv hi hp
    obtain ⟨hcap, _, hslots⟩ := erase_slots t (t.slots i).price
    have hgone : ((t.erase (t.slots i).price).slots i).price = kTombstone := by
      simp only [PriceLevelTable.erase, h.search_slot hi hp, if_true]
      split
      . simp [rescanBest]
      . simp
    refine ⟨hinv, ?_, ?_⟩
    . rw [hinv.find_eq_none_iff hp, hcap]
      intro j hj
      by_cases hji : j = i
      . subst hji
        rw [hgone]
        exact (ne_of_isPrice hp).2.symm
      . have hne : (t.slots j).price ≠ (t.slots i).price := by
          intro heq
          exact hji (h.placed.inj j i hj hi (heq ▸ (ne_of_isPrice hp).1)
            (heq ▸ (ne_of_isPrice hp).2) heq)
        rw [hslots j hne]
        exact hne
    . intro q hq hne
      ext l'
      rw [hinv.find_eq_some_iff hq, h.find_eq_some_iff hq, hcap]
      constructor
      . rintro ⟨j, hj, hjq, hl⟩
        have hji : (t.slots j).price ≠ (t.slots i).price := by
          intro heq
          have : j = i := h.placed.inj j i hj hi (heq ▸ (ne_of_isPrice hp).1)
            (heq ▸ (ne_of_isPrice hp).2) heq
          subst this
          rw [hgone] at hjq
          exact (ne_of_isPrice hq).2 hjq.symm
        rw [hslots j hji] at hjq hl
        exact ⟨j, hj, hjq, hl⟩
      . rintro ⟨j, hj, hjq, hl⟩
        have hji : (t.slots j).price ≠ (t.slots i).price := by
          rw [hjq]
          exact hne
        refine ⟨j, hj, ?_, ?_⟩
        . rw [hslots j hji]
          exact hjq
        . rw [hslots j hji]
          exact hl

theorem Inv.init (isBid : Bool) [Inhabited β] : (init isBid : PriceLevelTable β).Inv := by
  have hcap : 0 < (PriceLevelTable.init isBid : PriceLevelTable β).cap := by
    show 0 < kInitCapacity
    decide
  refine ⟨hcap, ?_, ?_, ?_, ?_, Or.inl rfl⟩
  . exact Probe.Placed.init (probe_lt hcap) (fun _ _ => rfl)
  . intro i _ hp
    simp [PriceLevelTable.init, isPrice] at hp
  . simp [PriceLevelTable.init, isPrice]
  . intro i _ hp
    simp [PriceLevelTable.init, isPrice] at hp

theorem init_find (isBid : Bool) [Inhabited β] (hp : isPrice p = true)
    : (PriceLevelTable.init isBid : PriceLevelTable β).find p = none := by
  rw [(Inv.init isBid).find_eq_none_iff hp]
  intro i _ h
  exact (ne_of_isPrice hp).1 h.symm

end Operations

end PriceLevelTable

end NebulaXTrader
