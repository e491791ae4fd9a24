import Mathlib.Data.List.Basic

/-!
This module contains incremental parsers of a stream: a buffer to which chunks are appended and from which
complete frames are taken off at the front. What comes out depends on the concatenation of the chunks only.
-/

/--
One round of the loop that takes frames off a buffer: `none` waits for more input, otherwise some input is
consumed, with or without a frame. The round does not look behind what it consumes.
-/
structure Deframer (α β : Type) where
  next : List α → Option (Option β × List α)
  shrinks : ∀ buf o rest, next buf = some (o, rest) → rest.length < buf.length
  extend : ∀ buf o rest more, next buf = some (o, rest) → next (buf ++ more) = some (o, rest ++ more)

namespace Deframer

variable {α β : Type} (d : Deframer α β)

def drain (fuel : Nat) (buf : List α) : Option (List β × List α) :=
  match fuel with
  | 0 => none
  | fuel + 1 =>
    match d.next buf with
    | none => some ([], buf)
    | some (o, rest) => (drain fuel rest).map (fun r => (o.toList ++ r.1, r.2))

def append (s : List β × List α) (chunk : List α) : Option (List β × List α) :=
  (d.drain (s.2.length + chunk.length + 1) (s.2 ++ chunk)).map (fun r => (s.1 ++ r.1, r.2))

def appendAll (s : List β × List α) (chunks : List (List α)) : Option (List β × List α) :=
  match chunks with
  | [] => some s
  | chunk :: chunks => (d.append s chunk).bind (fun s => appendAll s chunks)

def Drains (buf : List α) (r : List β × List α) : Prop := ∃ fuel, d.drain fuel buf = some r

variable {d}

theorem drain_wait {buf : List α} (h : d.next buf = none) (fuel : Nat)
    : d.drain (fuel + 1) buf = some ([], buf) := by
  unfold drain
  rw [h]

theorem drain_next {buf rest : List α} {o : Option β} (h : d.next buf = some (o, rest)) (fuel : Nat)
    : d.drain (fuel + 1) buf = (d.drain fuel rest).map (fun r => (o.toList ++ r.1, r.2)) := by
  conv => lhs; unfold drain
  rw [h]

theorem drain_terminates (fuel : Nat) (buf : List α) (h : buf.length < fuel)
    : ∃ r, d.drain fuel buf = some r := by
  induction fuel generalizing buf with
  | zero => omega
  | succ fuel ih =>
    cases hnext : d.next buf with
    | none => exact ⟨_, drain_wait hnext fuel⟩
    | some p =>
      have hlt := d.shrinks buf p.1 p.2 hnext
      obtain ⟨r, hr⟩ := ih p.2 (by omega)
      rw [drain_next hnext, hr]
      exact ⟨_, rfl⟩

theorem drain_mono {fuel fuel' : Nat} {buf : List α} {r : List β × List α} (h : d.drain fuel buf = some r)
    (hle : fuel ≤ fuel') : d.drain fuel' buf = some r := by
  induction fuel generalizing fuel' buf r with
  | zero => cases h
  | succ fuel ih =>
    obtain ⟨n, rfl⟩ : ∃ n, fuel' = n + 1 := ⟨fuel' - 1, by omega⟩
    cases hnext : d.next buf with
    | none =>
      rw [drain_wait hnext] at h ⊢
      exact h
    | some p =>
      rw [drain_next hnext, Option.map_eq_some_iff] at h
      obtain ⟨q, hq, rfl⟩ := h
      rw [drain_next hnext, ih hq (by omega)]
      rfl

theorem Drains.unique {buf : List α} {r r' : List β × List α} (h : d.Drains buf r) (h' : d.Drains buf r')
    : r = r' := by
  obtain ⟨n, hn⟩ := h
  obtain ⟨n', hn'⟩ := h'
  have hmax := drain_mono hn (Nat.le_max_left n n')
  rw [drain_mono hn' (Nat.le_max_right n n'), Option.some_inj] at hmax
  exact hmax.symm

theorem Drains.total (buf : List α) : ∃ r, d.Drains buf r := by
  obtain ⟨r, hr⟩ := drain_terminates (d := d) (buf.length + 1) buf (Nat.lt_succ_self _)
  exact ⟨r, _, hr⟩

theorem Drains.drain_eq {buf : List α} {r : List β × List α} (h : d.Drains buf r) {fuel : Nat}
    (hfuel : buf.length < fuel) : d.drain fuel buf = some r := by
  obtain ⟨r', hr'⟩ := drain_terminates (d := d) fuel buf hfuel
  rw [hr', h.unique ⟨fuel, hr'⟩]

theorem Drains.wait {buf : List α} (h : d.next buf = none) : d.Drains buf ([], buf) :=
  ⟨1, drain_wait h 0⟩

theorem Drains.step {buf rest : List α} {o : Option β} {r : List β × List α}
    (h : d.next buf = some (o, rest)) (hr : d.Drains rest r)
    : d.Drains buf (o.toList ++ r.1, r.2) := by
  obtain ⟨n, hn⟩ := hr
  refine ⟨n + 1, ?_⟩
  rw [drain_next h, hn]
  rfl

/--
A loop that ran before more input arrived has only done the first part of the work.
-/
theorem Drains.append {buf more : List α} {r r' : List β × List α} (h : d.Drains buf r)
    (h' : d.Drains (r.2 ++ more) r') : d.Drains (buf ++ more) (r.1 ++ r'.1, r'.2) := by
  obtain ⟨n, hn⟩ := h
  induction n generalizing buf r with
  | zero => cases hn
  | succ n ih =>
    cases hnext : d.next buf with
    | none =>
      rw [drain_wait hnext, Option.some_inj] at hn
      subst hn
      exact h'
    | some p =>
      rw [drain_next hnext, Option.map_eq_some_iff] at hn
      obtain ⟨q, hq, rfl⟩ := hn
      have hlater : d.Drains (q.2 ++ more) r' := h'
      have hrest := ih hlater hq
      have hmore := d.extend buf p.1 p.2 more hnext
      simpa only [List.append_assoc] using hrest.step hmore

theorem Drains.appendAll {buf : List α} {s r : List β × List α} (h : d.Drains buf s) (chunks : List (List α))
    (hr : d.Drains (buf ++ chunks.flatten) r) : d.appendAll s chunks = some r := by
  induction chunks generalizing buf s with
  | nil =>
    rw [List.flatten_nil, List.append_nil] at hr
    rw [h.unique hr]
    rfl
  | cons chunk chunks ih =>
    obtain ⟨q, hq⟩ := Drains.total (d := d) (s.2 ++ chunk)
    have hnext := h.append hq
    have happend : d.append s chunk = some (s.1 ++ q.1, q.2) := by
      unfold Deframer.append
      rw [hq.drain_eq (by simp)]
      rfl
    unfold Deframer.appendAll
    rw [happend]
    apply ih hnext
    rw [List.flatten_cons, ← List.append_assoc] at hr
    exact hr

variable (d)

theorem next_nil : d.next [] = none := by
  cases h : d.next [] with
  | none => rfl
  | some p =>
    have hlt := d.shrinks [] p.1 p.2 h
    simp at hlt

theorem appendAll_eq (chunks : List (List α))
    : d.appendAll ([], []) chunks = d.drain (chunks.flatten.length + 1) chunks.flatten := by
  obtain ⟨r, hr⟩ := Drains.total (d := d) chunks.flatten
  have hempty : d.Drains [] ([], []) := .wait d.next_nil
  rw [hr.drain_eq (Nat.lt_succ_self _)]
  exact hempty.appendAll chunks hr

theorem drains_flatten (frames : List (List α)) (handed : List α → β)
    (h : ∀ frame ∈ frames, ∀ more, d.next (frame ++ more) = some (some (handed frame), more))
    : d.Drains frames.flatten (frames.map handed, []) := by
  induction frames with
  | nil => exact .wait d.next_nil
  | cons frame frames ih =>
    have hrest := ih (fun f hf => h f (List.mem_cons_of_mem frame hf))
    exact .step (h frame List.mem_cons_self frames.flatten) hrest

end Deframer
