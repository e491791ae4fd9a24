import NebulaXTrader.Market.MarketEvent
import NebulaXTrader.Queue.EventFifo

/-!
This module contains the rings and the retry buckets that `run_strategies` builds from the configuration, and the
theorem that says for which settings they are sound.
-/

namespace NebulaXTrader

/--
`market.chan_slots` and `order_book.workers`, which the loader accepts as any two values of a `size_t`.
-/
structure Config where
  chanSlots : Nat := 1048576
  workers : Nat := 4

/--
The share of each worker is a power of two.
-/
def Config.PowerShare (c : Config) : Prop :=
  ∃ k, c.workers * 2 ^ k ≤ c.chanSlots ∧ c.chanSlots < c.workers * (2 ^ k + 1)

namespace SPSCEventRing

def init (slots : Nat → MarketEvent) (capacity : Nat) : SPSCEventRing MarketEvent where
  slots := slots
  capacity := capacity
  head := 0
  tail := 0

-- the storage is never null here: `std::make_unique` throws if there is none
def valid (r : SPSCEventRing MarketEvent) : Bool := r.capacity &&& (r.capacity - 1) == 0

end SPSCEventRing

/--
What `std::make_unique` puts into every slot.
-/
def zeroEvent : MarketEvent where
  seqId := 0
  locate := 0
  timestamp := 0
  body := .ADD {}

structure RetryBucket where
  bucket : SPSCEventRing MarketEvent
  active : Bool := false

namespace RunStrategies

open SPSCEventRing (Pipe Move Flows Fifo)

variable (c : Config)

def nworkers : Nat := max 1 c.workers

def perChan : Nat := c.chanSlots / nworkers c

def spscs : List (SPSCEventRing MarketEvent) :=
  (List.range (nworkers c)).map (fun _ => .init (fun _ => zeroEvent) (perChan c))

def retryBuckets : List RetryBucket :=
  (List.range (nworkers c)).map (fun _ => { bucket := .init (fun _ => zeroEvent) (perChan c) })

def rings : List (SPSCEventRing MarketEvent) := spscs c ++ (retryBuckets c).map (·.bucket)

end RunStrategies

namespace SPSCEventRing

def Reaches (r : SPSCEventRing MarketEvent) (s : Pipe MarketEvent) : Prop :=
  ∃ ms, Run.exec Pipe.step (Pipe.init r) ms = some s

/--
No two of the events that have been pushed and not yet popped have the same slot.
-/
def Pipe.Apart (s : Pipe MarketEvent) : Prop :=
  ∀ i j, i < j → j < s.pushed.length - s.popped.length →
    s.ring.slot (Wrap.add (2 ^ 64) s.ring.head i) ≠ s.ring.slot (Wrap.add (2 ^ 64) s.ring.head j)

structure Sound (r : SPSCEventRing MarketEvent) : Prop where
  valid : r.valid
  apart : ∀ s, r.Reaches s → s.Apart
  fifo : ∀ s, r.Reaches s → Fifo s

structure Broken (r : SPSCEventRing MarketEvent) : Prop where
  valid : r.valid = false
  aliases : ∃ s, r.Reaches s ∧ ¬ s.Apart
  loses : ∃ s, r.Reaches s ∧ ¬ s.popped <+: s.pushed

/--
The two sides at rest, after `evs` have been pushed into a new ring and none has been popped.
-/
def Pipe.filled (slots : Nat → MarketEvent) (capacity : Nat) (evs : List MarketEvent) : Pipe MarketEvent where
  ring := ⟨slots, capacity, 0, evs.length⟩
  producer := none
  consumer := .idle
  pushed := evs
  popped := []
  peeked := none

def pushing (ev : MarketEvent) : List (Move MarketEvent) := [.push ev, .producer, .producer, .producer, .producer]

def otherEvent : MarketEvent := { zeroEvent with seqId := 1 }

def popping : List (Move MarketEvent) := [.pop, .consumer, .consumer, .consumer, .consumer]

section

variable {capacity : Nat} (slots : Nat → MarketEvent)

theorem exec_pushing (hcap : capacity < 2 ^ 64) (evs : List MarketEvent) (hroom : evs.length < capacity)
    (ev : MarketEvent) : Run.exec Pipe.step (.filled slots capacity evs) (pushing ev) =
      some (.filled (Function.update slots (evs.length &&& (capacity - 1)) ev) capacity (evs ++ [ev])) := by
  have hsub : Wrap.sub (2 ^ 64) evs.length 0 = evs.length := Wrap.sub_eq_of_le (Nat.zero_le _) (by omega)
  have hadd : Wrap.add (2 ^ 64) evs.length 1 = evs.length + 1 := Wrap.add_eq_of_lt (by omega)
  have hnot : ¬ evs.length ≥ capacity := by omega
  simp only [pushing, Run.exec, Pipe.step, Pipe.stepProducer, Pipe.filled, push, slot, hsub, hadd, hnot, if_false,
    List.length_append, List.length_singleton]

theorem exec_repeat (hcap : capacity < 2 ^ 64) (ev : MarketEvent) {n : Nat} (hn : n ≤ capacity)
    : ∃ slots', Run.exec Pipe.step (.filled slots capacity []) (List.replicate n (pushing ev)).flatten =
      some (.filled slots' capacity (List.replicate n ev)) := by
  induction n with
  | zero => exact ⟨slots, rfl⟩
  | succ n ih =>
    obtain ⟨slots', hrun⟩ := ih (by omega)
    rw [List.replicate_succ', List.flatten_append, Run.exec_append, hrun, List.flatten_singleton, Option.bind_some,
      exec_pushing slots' hcap _ (by rw [List.length_replicate]; omega), ← List.replicate_succ']
    exact ⟨_, rfl⟩

theorem exec_popping (capacity : Nat) (evs : List MarketEvent) (hne : evs ≠ [])
    : ∃ s, Run.exec Pipe.step (.filled slots capacity evs) popping = some s ∧ s.pushed = evs ∧
      s.popped = [slots 0] := by
  have hlen : ¬ 0 = evs.length := by
    intro hlen
    exact hne (List.eq_nil_of_length_eq_zero hlen.symm)
  simp only [popping, Run.exec, Pipe.step, Pipe.stepConsumer, Pipe.filled, pop, slot, hlen, if_false, Nat.zero_and]
  exact ⟨_, rfl, rfl, rfl⟩

theorem init_sound {k : Nat} (hk : k < 64) : (init slots (2 ^ k)).Sound := by
  constructor
  . simp [valid, init]
  . intro s hs i j hij hj heq
    cases hs with
    | intro ms hrun =>
      obtain ⟨h, q, hflows⟩ := flows_of_run hk slots (by decide) ms hrun
      have hlength := hflows.length
      have hfits := hflows.holds.fits
      rw [hflows.holds.head, Wrap.add_mod, Wrap.add_mod, hflows.holds.slot_mod, hflows.holds.slot_mod] at heq
      have hsame := Wrap.eq_of_mod_eq (W := s.ring.capacity) (by omega) (by omega) heq.symm
      omega
  . intro s hs
    cases hs with
    | intro ms hrun =>
      obtain ⟨h, q, hs⟩ := flows_of_run hk slots (by decide) ms hrun
      exact hs.fifo

theorem exec_masked_out (hcap : capacity < 2 ^ 64) {j : Nat} (hj : 2 ^ j < capacity)
    (hmask : 2 ^ j &&& (capacity - 1) = 0)
    : ∃ ms slots', Run.exec Pipe.step (Pipe.init (init slots capacity)) ms = some (.filled
        (Function.update slots' 0 otherEvent) capacity (List.replicate (2 ^ j) zeroEvent ++ [otherEvent])) := by
  -- The event that is pushed after `2 ^ j` others takes the slot of the first, if the mask does not have the bit
  -- `j`.
  obtain ⟨slots', hrun⟩ := exec_repeat slots hcap zeroEvent (Nat.le_of_lt hj)
  refine ⟨(List.replicate (2 ^ j) (pushing zeroEvent)).flatten ++ pushing otherEvent, slots', ?_⟩
  have hlast := exec_pushing slots' hcap (List.replicate (2 ^ j) zeroEvent) (by simpa using hj) otherEvent
  rw [List.length_replicate, hmask] at hlast
  rw [Run.exec_append]
  show Option.bind (Run.exec Pipe.step (.filled slots capacity []) _) _ = _
  rw [hrun]
  exact hlast

theorem init_broken (hpos : 0 < capacity) (hcap : capacity < 2 ^ 64) (hpow : ¬ capacity.isPowerOfTwo)
    : (init slots capacity).Broken := by
  obtain ⟨j, hj, hmask⟩ := Wrap.exists_masked_out hpos hpow
  obtain ⟨ms, slots', hrun⟩ := exec_masked_out slots hcap hj hmask
  have hfirst : 0 < (List.replicate (2 ^ j) zeroEvent).length := by
    rw [List.length_replicate]
    exact Nat.two_pow_pos j
  constructor
  . have hne := mt (Nat.and_sub_one_eq_zero_iff_isPowerOfTwo (by omega)).1 hpow
    simpa [valid, init] using hne
  . refine ⟨_, ⟨ms, hrun⟩, ?_⟩
    intro hapart
    apply hapart 0 (2 ^ j) (Nat.two_pow_pos j)
    . show 2 ^ j < (List.replicate (2 ^ j) zeroEvent ++ [otherEvent]).length - 0
      rw [List.length_append, List.length_replicate]
      exact Nat.lt_succ_self _
    . show (Wrap.add (2 ^ 64) 0 0) &&& (capacity - 1) = (Wrap.add (2 ^ 64) 0 (2 ^ j)) &&& (capacity - 1)
      rw [Wrap.add_eq_of_lt (by omega), Wrap.add_eq_of_lt (by omega), Nat.zero_add, Nat.zero_add, hmask,
        Nat.zero_and]
  . obtain ⟨s, hpop, hpushed, hpopped⟩ := exec_popping (Function.update slots' 0 otherEvent) capacity
      (List.replicate (2 ^ j) zeroEvent ++ [otherEvent]) (List.append_ne_nil_of_right_ne_nil _ (List.cons_ne_nil _ _))
    refine ⟨s, ⟨ms ++ popping, ?_⟩, ?_⟩
    . rw [Run.exec_append, hrun]
      exact hpop
    . rw [hpushed, hpopped, Function.update_self]
      intro hprefix
      have heq := hprefix.getElem (i := 0) (Nat.zero_lt_one)
      rw [List.getElem_append_left hfirst, List.getElem_replicate] at heq
      revert heq
      show ¬ otherEvent = zeroEvent
      decide

end

end SPSCEventRing

namespace RunStrategies

open SPSCEventRing (Pipe pushing popping otherEvent)

variable {c : Config}

theorem powerShare_iff (hworkers : 1 ≤ c.workers) : c.PowerShare ↔ (perChan c).isPowerOfTwo := by
  have hmax : nworkers c = c.workers := max_eq_right hworkers
  unfold Config.PowerShare Nat.isPowerOfTwo perChan
  rw [hmax]
  apply exists_congr
  intro k
  rw [Nat.div_eq_iff (by omega), Nat.mul_add, Nat.mul_comm c.workers]
  omega

theorem mem_rings {r : SPSCEventRing MarketEvent} (hr : r ∈ rings c)
    : r = .init (fun _ => zeroEvent) (perChan c) := by
  unfold rings spscs retryBuckets at hr
  rw [List.map_map, List.mem_append, List.mem_map, List.mem_map] at hr
  cases hr with
  | inl hspsc => exact hspsc.choose_spec.2.symm
  | inr hbucket => exact hbucket.choose_spec.2.symm

theorem length_rings : (rings c).length = 2 * nworkers c := by
  simp [rings, spscs, retryBuckets]
  omega

/--
The rings are sound if and only if the share of each worker is a power of two. Otherwise all of them are broken.
-/
theorem rings_sound_iff (hworkers : 1 ≤ c.workers) (hle : c.workers ≤ c.chanSlots) (hslots : c.chanSlots < 2 ^ 64)
    : ((∀ r ∈ rings c, r.Sound) ↔ c.PowerShare) ∧ (¬ c.PowerShare → ∀ r ∈ rings c, r.Broken) := by
  have hmax : nworkers c = c.workers := max_eq_right hworkers
  have hpos : 0 < perChan c := by
    unfold perChan
    rw [hmax]
    exact Nat.div_pos hle hworkers
  have hword : perChan c < 2 ^ 64 := Nat.lt_of_le_of_lt (Nat.div_le_self _ _) hslots
  have hbroken : ¬ c.PowerShare → ∀ r ∈ rings c, r.Broken := by
    intro hshare r hr
    rw [powerShare_iff hworkers] at hshare
    rw [mem_rings hr]
    exact SPSCEventRing.init_broken _ hpos hword hshare
  refine ⟨⟨?_, ?_⟩, hbroken⟩
  . intro hsound
    by_contra hshare
    have hlength : 0 < (rings c).length := by
      rw [length_rings, hmax]
      omega
    have hvalid := (hsound _ (List.getElem_mem hlength)).valid
    rw [(hbroken hshare _ (List.getElem_mem hlength)).valid] at hvalid
    cases hvalid
  . intro hshare r hr
    rw [powerShare_iff hworkers] at hshare
    cases hshare with
    | intro k hk =>
      have hexp : k < 64 := by
        rw [hk] at hword
        exact (Nat.pow_lt_pow_iff_right (by decide)).1 hword
      rw [mem_rings hr, hk]
      exact SPSCEventRing.init_sound _ hexp

theorem default_rings_sound : (rings {}).length = 8 ∧ ∀ r ∈ rings {}, r.Sound := by
  constructor
  . rfl
  . apply (rings_sound_iff (c := {}) (by decide) (by decide) (by decide)).1.2
    exact ⟨18, by decide, by decide⟩

/--
With three workers the second event overwrites the first, and is popped in its place.
-/
theorem three_workers_alias
    : (∃ r ∈ rings { workers := 3 }, ∃ s, r.Reaches s ∧ s.pushed = [zeroEvent, otherEvent] ∧ s.popped = [otherEvent]) ∧
      ¬ ∀ c : Config, 1 ≤ c.workers → c.workers ≤ c.chanSlots → c.chanSlots < 2 ^ 64 →
        ∀ r ∈ rings c, r.Sound := by
  have hmem : SPSCEventRing.init (fun _ => zeroEvent) 349525 ∈ rings { workers := 3 } := List.mem_append_left _ (by
    exact List.mem_cons_self)
  constructor
  . exact ⟨_, hmem, _, ⟨pushing zeroEvent ++ pushing otherEvent ++ popping, rfl⟩, rfl, rfl⟩
  . intro hall
    have hvalid := (hall { workers := 3 } (by decide) (by decide) (by decide) _ hmem).valid
    revert hvalid
    decide

end RunStrategies

end NebulaXTrader
