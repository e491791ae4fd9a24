import NebulaXTrader.Queue.SPSCByteRing

/-!
This module contains what `SPSCByteRing` computes, in terms of positions that are not reduced modulo
`2 ^ 64`. The capacity is `2 ^ k`.
-/

namespace NebulaXTrader

namespace SPSCByteRing

variable {k : Nat}

theorem capacity_pos : 0 < 2 ^ k := Nat.two_pow_pos k

theorem capacity_le (hk : k < 64) : 2 ^ k ≤ 2 ^ 63 := by
  apply Nat.pow_le_pow_right
  . decide
  . omega

theorem capacity_dvd (hk : k < 64) : 2 ^ k ∣ 2 ^ 64 := by
  apply Nat.pow_dvd_pow
  omega

theorem pos_eq (hk : k < 64) (p : Nat) : pos (2 ^ k) (p % 2 ^ 64) = p % 2 ^ k := by
  unfold pos
  apply Wrap.mod_and_mask
  apply capacity_dvd hk

theorem nextLap_eq (hk : k < 64) (p : Nat)
    : nextLap (2 ^ k) (p % 2 ^ 64) = Wrap.nextLap (2 ^ k) p % 2 ^ 64 := by
  apply Wrap.nextLap_mod
  apply capacity_dvd hk

theorem sub64_eq {hd tl : Nat} (hle : hd ≤ tl) (hlt : tl - hd < 2 ^ 64)
    : sub64 (tl % 2 ^ 64) (hd % 2 ^ 64) = tl - hd := by
  unfold sub64
  apply Wrap.sub_mod
  . exact hle
  . exact hlt

theorem add64_eq (p n : Nat) : add64 (p % 2 ^ 64) n = (p + n) % 2 ^ 64 := by
  unfold add64
  apply Wrap.add_mod

theorem acquire_eq (hk : k < 64) {hd tl : Nat} (request : Nat) (hle : hd ≤ tl)
    (hlt : tl < hd + 2 ^ 64)
    : acquire (2 ^ k) (hd % 2 ^ 64) (tl % 2 ^ 64) request =
        min (min request (tl - hd)) (2 ^ k - hd % 2 ^ k) := by
  have hcap := capacity_le hk
  have hpos := Nat.mod_lt hd (capacity_pos (k := k))
  unfold acquire
  rw [sub64_eq hle (by omega), pos_eq hk]
  dsimp only
  split
  . omega
  . split
    . split
      . omega
      . omega
    . split
      . omega
      . omega

theorem plan_of_fits (hk : k < 64) {hd tl : Nat} {data : List UInt8} (hle : hd ≤ tl)
    (hroom : tl ≤ hd + 2 ^ k) (hne : data.length ≠ 0) (hfit : tl % 2 ^ k + data.length ≤ 2 ^ k)
    : plan (2 ^ k) (hd % 2 ^ 64) (tl % 2 ^ 64) data =
        if hd + 2 ^ k < tl + data.length then
          none
        else
          some {
            copies := [(tl % 2 ^ k, data)]
            tail := (tl + data.length) % 2 ^ 64 } := by
  have hcap := capacity_le hk
  have hadd : add64 (tl % 2 ^ k) data.length = tl % 2 ^ k + data.length := by
    unfold add64
    apply Wrap.add_eq_of_lt
    omega
  have hfree : sub64 (2 ^ k) (tl - hd) = 2 ^ k - (tl - hd) := by
    unfold sub64
    apply Wrap.sub_eq_of_le
    . omega
    . omega
  unfold plan
  dsimp only
  rw [pos_eq hk, hadd, if_pos hfit, sub64_eq hle (by omega), hfree, add64_eq]
  by_cases hfull : hd + 2 ^ k < tl + data.length
  . rw [if_pos hfull, if_pos (by omega)]
  . rw [if_neg hfull, if_neg (by omega)]

theorem placed_of_fits {tl : Nat} {data : List UInt8} (hfit : tl % 2 ^ k + data.length ≤ 2 ^ k)
    : Cells.Placed (2 ^ k) tl [(tl % 2 ^ k, data)] := by
  unfold Cells.Placed
  constructor
  . apply Or.inr
    exact ⟨rfl, hfit⟩
  . trivial

def crossing (capacity p : Nat) (data : List UInt8) : List (Nat × List UInt8) :=
  let body := data.drop kHeaderBytes
  let bodyRoom := capacity - p % capacity - kHeaderBytes
  [(p % capacity, data.take kHeaderBytes), (p % capacity + kHeaderBytes, body.take bodyRoom),
    (0, body.drop bodyRoom)]

theorem content_crossing (capacity p : Nat) (data : List UInt8)
    : Cells.content (crossing capacity p data) = data := by
  unfold Cells.content crossing
  simp only [List.map_cons, List.map_nil, List.flatten_cons, List.flatten_nil, List.append_nil]
  rw [List.take_append_drop, List.take_append_drop]

theorem placed_crossing {tl : Nat} {data : List UInt8} (hlen : data.length ≤ 2 ^ k)
    (hcross : 2 ^ k < tl % 2 ^ k + data.length) (hroom : kHeaderBytes ≤ 2 ^ k - tl % 2 ^ k)
    : Cells.Placed (2 ^ k) tl (crossing (2 ^ k) tl data) := by
  have hpos := Nat.mod_lt tl (capacity_pos (k := k))
  have hheader : (data.take kHeaderBytes).length = kHeaderBytes := by
    rw [List.length_take]
    omega
  have hbody : ((data.drop kHeaderBytes).take (2 ^ k - tl % 2 ^ k - kHeaderBytes)).length =
      2 ^ k - tl % 2 ^ k - kHeaderBytes := by
    rw [List.length_take, List.length_drop]
    omega
  have hrest : ((data.drop kHeaderBytes).drop (2 ^ k - tl % 2 ^ k - kHeaderBytes)).length ≤ 2 ^ k := by
    rw [List.length_drop, List.length_drop]
    omega
  have hlap : tl + kHeaderBytes + (2 ^ k - tl % 2 ^ k - kHeaderBytes) = Wrap.nextLap (2 ^ k) tl := by
    rw [Wrap.nextLap_eq tl capacity_pos]
    omega
  unfold crossing
  simp only [Cells.Placed]
  rw [hheader, hbody, hlap, Wrap.nextLap_mod_self]
  refine ⟨?_, ?_, ?_, trivial⟩
  . apply Or.inr
    exact ⟨trivial, by omega⟩
  . by_cases hlt : kHeaderBytes < 2 ^ k - tl % 2 ^ k
    . rw [Cells.mod_add_of_fits (by omega)]
      apply Or.inr
      exact ⟨rfl, by omega⟩
    . apply Or.inl
      apply List.eq_nil_of_length_eq_zero
      omega
  . apply Or.inr
    exact ⟨rfl, by omega⟩

theorem plan_of_crosses (hk : k < 64) {hd tl : Nat} {data : List UInt8}
    (hlen : data.length ≤ 2 ^ k) (hcross : 2 ^ k < tl % 2 ^ k + data.length)
    : plan (2 ^ k) (hd % 2 ^ 64) (tl % 2 ^ 64) data =
        if (hd + 2 ^ k) % 2 ^ 64 < (Wrap.nextLap (2 ^ k) tl + data.length) % 2 ^ 64 then
          none
        else if kHeaderBytes ≤ 2 ^ k - tl % 2 ^ k then
          some { copies := crossing (2 ^ k) tl data, tail := (tl + data.length) % 2 ^ 64 }
        else
          some {
            copies := [(0, data)]
            tail := (Wrap.nextLap (2 ^ k) tl + data.length) % 2 ^ 64 } := by
  -- A message that crosses the end of the buffer is split behind its header if the header fits
  -- before the end, and moved to the begin of the next lap if not.
  have hcap := capacity_le hk
  have hpos := Nat.mod_lt tl (capacity_pos (k := k))
  have hadd : add64 (tl % 2 ^ k) data.length = tl % 2 ^ k + data.length := by
    unfold add64
    apply Wrap.add_eq_of_lt
    omega
  unfold plan
  dsimp only
  rw [pos_eq hk, hadd, if_neg (by omega), nextLap_eq hk, add64_eq, add64_eq, add64_eq]
  congr 1
  by_cases hroom : kHeaderBytes ≤ 2 ^ k - tl % 2 ^ k
  . have hbody : (data.drop kHeaderBytes).length > 2 ^ k - tl % 2 ^ k - kHeaderBytes := by
      rw [List.length_drop]
      omega
    rw [if_pos hroom, if_pos hroom, if_pos hbody]
    rfl
  . rw [if_neg hroom, if_neg hroom]

theorem not_full_of_empty (hk : k < 64) {p n : Nat} (hn : n ≤ p % 2 ^ k)
    : ¬ (p + 2 ^ k) % 2 ^ 64 < (Wrap.nextLap (2 ^ k) p + n) % 2 ^ 64 := by
  have hpos := Nat.mod_lt p (capacity_pos (k := k))
  have hlap : p + 2 ^ k = Wrap.nextLap (2 ^ k) p + p % 2 ^ k := by
    rw [Wrap.nextLap_eq p capacity_pos]
    omega
  -- Both sides of the test lie in the next lap, which does not contain a multiple of `2 ^ 64`.
  rw [hlap, Wrap.nextLap_add_mod (capacity_dvd hk) p hpos,
    Wrap.nextLap_add_mod (capacity_dvd hk) p (by omega)]
  omega

theorem plan_of_empty (hk : k < 64) (p : Nat) (data : List UInt8) (hne : data.length ≠ 0)
    (hlen : 2 * data.length ≤ 2 ^ k)
    : ∃ r, plan (2 ^ k) (p % 2 ^ 64) (p % 2 ^ 64) data = some r ∧ ∃ q, r.tail = q % 2 ^ 64 := by
  by_cases hfit : p % 2 ^ k + data.length ≤ 2 ^ k
  . rw [plan_of_fits hk (Nat.le_refl p) (by omega) hne hfit, if_neg (by omega)]
    exact ⟨_, rfl, p + data.length, rfl⟩
  . rw [plan_of_crosses hk (by omega) (by omega)]
    rw [if_neg (not_full_of_empty hk (by omega))]
    split
    . exact ⟨_, rfl, p + data.length, rfl⟩
    . exact ⟨_, rfl, Wrap.nextLap (2 ^ k) p + data.length, rfl⟩

theorem placed_skip {tl : Nat} {data : List UInt8} (hlen : data.length ≤ 2 ^ k)
    : Cells.Placed (2 ^ k) (Wrap.nextLap (2 ^ k) tl) [(0, data)] := by
  unfold Cells.Placed
  rw [Wrap.nextLap_mod_self]
  constructor
  . apply Or.inr
    exact ⟨rfl, by simpa using hlen⟩
  . trivial

end SPSCByteRing

end NebulaXTrader
