import NebulaXTrader.Market.ByteRingParser
import NebulaXTrader.Queue.Lemmas.SPSCByteRing

/-!
This module contains the layout of the messages in the byte ring, in positions that are not reduced modulo
`2 ^ 64`, and what a push adds to it.
-/

namespace NebulaXTrader

namespace BytePipeline

open SPSCByteRing (pos nextLap plan)

variable {k cap p : Nat} {ms : List Message} {buf buf' : Nat → UInt8}

/--
Where a message is put whose push finds the tail at `p`: the rest of the lap is skipped if no head fits.
-/
def place (cap p : Nat) : Nat := if p % cap + kHeadBytes ≤ cap then p else Wrap.nextLap cap p

def ends (cap p : Nat) (ms : List Message) : Nat :=
  match ms with
  | [] => p
  | m :: ms => ends cap (place cap p + m.frame.length) ms

def Stored (cap : Nat) (buf : Nat → UInt8) (p : Nat) (ms : List Message) : Prop :=
  match ms with
  | [] => True
  | m :: ms =>
    Cells.stream buf cap (place cap p) m.frame.length = m.frame ∧
      Stored cap buf (place cap p + m.frame.length) ms

def gaps (cap p : Nat) (ms : List Message) : List Nat :=
  match ms with
  | [] => []
  | m :: ms =>
    if p % cap + kHeadBytes ≤ cap then
      gaps cap (place cap p + m.frame.length) ms
    else
      p % 2 ^ 64 :: gaps cap (place cap p + m.frame.length) ms

theorem place_of_fits (h : p % cap + kHeadBytes ≤ cap) : place cap p = p := if_pos h

theorem place_of_not_fits (h : ¬p % cap + kHeadBytes ≤ cap) : place cap p = Wrap.nextLap cap p := if_neg h

theorem place_nextLap (h : kHeadBytes ≤ cap) : place cap (Wrap.nextLap cap p) = Wrap.nextLap cap p := by
  apply place_of_fits
  rw [Wrap.nextLap_mod_self]
  omega

theorem le_place (hcap : 0 < cap) : p ≤ place cap p := by
  unfold place
  split
  . exact Nat.le_refl p
  . rw [Wrap.nextLap_eq p hcap]
    omega

theorem le_ends (hcap : 0 < cap) : p ≤ ends cap p ms := by
  induction ms generalizing p with
  | nil => exact Nat.le_refl p
  | cons m ms ih =>
    have hplace := le_place hcap (p := p)
    have hrest := ih (p := place cap p + m.frame.length)
    unfold ends
    omega

theorem ends_concat (m : Message)
    : ends cap p (ms ++ [m]) = place cap (ends cap p ms) + m.frame.length := by
  induction ms generalizing p with
  | nil => rfl
  | cons m' ms ih => exact ih

theorem gaps_concat (m : Message)
    : gaps cap p (ms ++ [m]) = gaps cap p ms ++
        if ends cap p ms % cap + kHeadBytes ≤ cap then [] else [ends cap p ms % 2 ^ 64] := by
  induction ms generalizing p with
  | nil => rfl
  | cons m' ms ih =>
    rw [List.cons_append]
    unfold gaps ends
    rw [ih]
    split
    . rfl
    . rfl

theorem Stored.concat (h : Stored cap buf p ms) {m : Message}
    (hm : Cells.stream buf cap (place cap (ends cap p ms)) m.frame.length = m.frame)
    : Stored cap buf p (ms ++ [m]) := by
  induction ms generalizing p with
  | nil => exact ⟨hm, trivial⟩
  | cons m' ms ih => exact ⟨h.1, ih h.2 hm⟩

theorem Stored.congr (h : Stored cap buf p ms) (hcap : 0 < cap)
    (hsame : ∀ q n, p ≤ q → q + n ≤ ends cap p ms → Cells.stream buf' cap q n = Cells.stream buf cap q n)
    : Stored cap buf' p ms := by
  induction ms generalizing p with
  | nil => trivial
  | cons m ms ih =>
    have hplace := le_place hcap (p := p)
    have hrest := @le_ends cap (place cap p + m.frame.length) ms hcap
    constructor
    . rw [hsame _ _ hplace hrest]
      exact h.1
    . apply ih h.2
      intro q n hq hn
      apply hsame
      . omega
      . exact hn

theorem length_frame_le (hk : 9 ≤ k) (m : Message) : 2 * m.frame.length ≤ 2 ^ k := by
  have hlength := m.length_frame
  have hbody := m.body_le
  have hcap : 2 ^ 9 ≤ 2 ^ k := Nat.pow_le_pow_right (by decide) hk
  omega

theorem room_of_test {hd tl len : Nat} (hk : k < 64) (hroom : tl ≤ hd + 2 ^ k) (hlen : len < 2 ^ k)
    (hroomy : Wrap.nextLap (2 ^ k) tl % 2 ^ 64 = 0 → 2 ^ 64 ≤ hd % 2 ^ 64 + 2 ^ k)
    (htest : ¬(hd + 2 ^ k) % 2 ^ 64 < (Wrap.nextLap (2 ^ k) tl + len) % 2 ^ 64)
    : Wrap.nextLap (2 ^ k) tl + len ≤ hd + 2 ^ k := by
  -- The test for room of a push that crosses the end of a lap.
  have hlap := Wrap.nextLap_eq tl (SPSCByteRing.capacity_pos (k := k))
  have hmod := Wrap.nextLap_mod_self (2 ^ k) tl
  have hdvd := SPSCByteRing.capacity_dvd hk
  have hhalf := SPSCByteRing.capacity_le hk
  apply le_of_not_gt
  intro hlt
  apply htest
  rw [Wrap.nextLap_add_mod hdvd tl hlen]
  by_cases hnext : Wrap.nextLap (2 ^ k) tl ≤ hd + 2 ^ k
  . -- both positions are in the lap after the one of the tail
    have heq : hd + 2 ^ k = Wrap.nextLap (2 ^ k) tl + (hd + 2 ^ k - Wrap.nextLap (2 ^ k) tl) := by omega
    rw [heq, Wrap.nextLap_add_mod hdvd tl (by omega)]
    omega
  . by_cases hzero : Wrap.nextLap (2 ^ k) tl % 2 ^ 64 = 0
    . have hhead := hroomy hzero
      omega
    . have hge : 2 ^ k ≤ Wrap.nextLap (2 ^ k) tl % 2 ^ 64 := by
        apply Nat.le_of_dvd
        . omega
        . apply (Nat.dvd_mod_iff hdvd).2
          exact Nat.dvd_of_mod_eq_zero hmod
      omega

theorem plan_some {hd tl : Nat} {m : Message} {r : SPSCByteRing.Plan} (hk : 9 ≤ k) (hk' : k < 64)
    (hle : hd ≤ tl) (hroom : tl ≤ hd + 2 ^ k)
    (hroomy : 2 ^ k < tl % 2 ^ k + m.frame.length → Wrap.nextLap (2 ^ k) tl % 2 ^ 64 = 0 →
      2 ^ 64 ≤ hd % 2 ^ 64 + 2 ^ k)
    (hplan : plan (2 ^ k) (hd % 2 ^ 64) (tl % 2 ^ 64) m.frame = some r)
    : r.tail = (place (2 ^ k) tl + m.frame.length) % 2 ^ 64 ∧
        place (2 ^ k) tl + m.frame.length ≤ hd + 2 ^ k ∧
        Cells.Placed (2 ^ k) (place (2 ^ k) tl) r.copies ∧ Cells.content r.copies = m.frame := by
  have hlength := m.length_frame
  have hbody := m.body_pos
  have hsmall := length_frame_le hk m
  by_cases hfit : tl % 2 ^ k + m.frame.length ≤ 2 ^ k
  . have hplace : place (2 ^ k) tl = tl := by
      apply place_of_fits
      unfold kHeadBytes
      omega
    rw [SPSCByteRing.plan_of_fits hk' hle hroom (by omega) hfit] at hplan
    split at hplan
    . cases hplan
    . cases hplan
      rw [hplace]
      refine ⟨rfl, by omega, SPSCByteRing.placed_of_fits hfit, ?_⟩
      simp [Cells.content]
  . rw [SPSCByteRing.plan_of_crosses hk' (by omega) (by omega)] at hplan
    split at hplan
    . cases hplan
    . next hnot =>
      have hroom' : Wrap.nextLap (2 ^ k) tl + m.frame.length ≤ hd + 2 ^ k := by
        apply room_of_test hk' hroom
        . omega
        . exact hroomy (by omega)
        . exact hnot
      split at hplan
      . next hheader =>
        have hplace : place (2 ^ k) tl = tl := by
          apply place_of_fits
          unfold kHeadBytes
          unfold SPSCByteRing.kHeaderBytes at hheader
          omega
        have hlap := Wrap.nextLap_eq tl (SPSCByteRing.capacity_pos (k := k))
        cases hplan
        rw [hplace]
        refine ⟨rfl, by omega, ?_, SPSCByteRing.content_crossing _ _ _⟩
        exact SPSCByteRing.placed_crossing (by omega) (by omega) hheader
      . next hheader =>
        have hplace : place (2 ^ k) tl = Wrap.nextLap (2 ^ k) tl := by
          apply place_of_not_fits
          unfold kHeadBytes
          unfold SPSCByteRing.kHeaderBytes at hheader
          omega
        cases hplan
        rw [hplace]
        refine ⟨rfl, hroom', SPSCByteRing.placed_skip (by omega), ?_⟩
        simp [Cells.content]

end BytePipeline

end NebulaXTrader
