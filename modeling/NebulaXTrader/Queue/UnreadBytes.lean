import NebulaXTrader.Lib.Run
import NebulaXTrader.Queue.Lemmas.SPSCByteRing

/-!
This module contains the theorem that `SPSCByteRing::push` never writes over bytes that are still to be read, for
messages of any length and a consumer that releases bytes between any two of its steps.
-/

namespace NebulaXTrader

namespace SPSCByteRing

/--
A push that has been accepted: the copies that are still to be made, and the position it will store.
-/
structure Job where
  data : List UInt8
  copies : List (Nat × List UInt8)
  tail : Nat

/--
What a push has published: the bytes that it skipped at the physical end, and its message.
-/
structure Entry where
  hole : Nat
  data : List UInt8

/--
The ring, the push that is under way, and what has been published so far.
-/
structure Shared where
  ring : SPSCByteRing
  job : Option Job
  log : List Entry

inductive Access where
  | call (data : List UInt8)
  | copy
  | publish
  | release (bytes : Nat)

namespace Shared

def init (capacity : Nat) (buf : Nat → UInt8) : Shared where
  ring := fresh buf capacity
  job := none
  log := []

/--
A call loads both positions. If there is no room it returns 0, and nothing has changed.
-/
def stepCall (s : Shared) (data : List UInt8) : Option Shared :=
  match s.job with
  | some _ => none
  | none =>
    match plan s.ring.capacity s.ring.head s.ring.tail data with
    | none => some s
    | some p => some { s with job := some { data := data, copies := p.copies, tail := p.tail } }

def stepCopy (s : Shared) : Option Shared :=
  match s.job with
  | none => none
  | some job =>
    match job.copies with
    | [] => none
    | c :: copies =>
      some { s with
        ring := { s.ring with buf := Cells.write s.ring.buf c.1 c.2 }
        job := some { job with copies := copies } }

/--
The store of the new tail, with which the call returns the length of its message.
-/
def stepPublish (s : Shared) : Option Shared :=
  match s.job with
  | none => none
  | some job =>
    match job.copies with
    | [] =>
      let hole := job.tail - (s.ring.tail + job.data.length)
      some { s with
        ring := { s.ring with tail := job.tail }
        job := none
        log := s.log ++ [{ hole := hole, data := job.data }] }
    | _ :: _ => none

/--
The consumer releases at most what is used.
-/
def stepRelease (s : Shared) (bytes : Nat) : Option Shared :=
  if bytes ≤ sub64 s.ring.tail s.ring.head then
    some { s with ring := s.ring.readRelease bytes }
  else
    none

def step (s : Shared) : Access → Option Shared
  | .call data => s.stepCall data
  | .copy => s.stepCopy
  | .publish => s.stepPublish
  | .release bytes => s.stepRelease bytes

/--
A message is not empty and no object is larger than `2 ^ 63 - 1`. The positions stay below `2 ^ 63`.
-/
def Low (s : Shared) : Access → Prop
  | .call data => s.ring.tail < 2 ^ 63 ∧ data ≠ [] ∧ data.length < 2 ^ 63
  | _ => True

instance (s : Shared) (a : Access) : Decidable (s.Low a) := by
  cases a with
  | call data => exact inferInstanceAs (Decidable (_ ∧ _ ∧ _))
  | copy => exact isTrue trivial
  | publish => exact isTrue trivial
  | release bytes => exact isTrue trivial

end Shared

/--
What stands in the ring from position 0 on. A skipped byte is not part of any message.
-/
def contents (log : List Entry) : List (Option UInt8) :=
  log.flatMap (fun e => List.replicate e.hole none ++ e.data.map some)

/--
An entry that starts at `p`: it skips less than a head, and only up to the physical end, and its own head is in one
piece.
-/
structure Entry.Fits (e : Entry) (capacity p : Nat) : Prop where
  short : e.hole < kHeaderBytes
  ends : e.hole = 0 ∨ (p + e.hole) % capacity = 0
  head : kHeaderBytes ≤ e.data.length → (p + e.hole) % capacity + kHeaderBytes ≤ capacity

/--
What holds in every state, whatever the two sides have done.
-/
structure Unharmed (capacity : Nat) (s : Shared) : Prop where
  order : s.ring.head ≤ s.ring.tail
  room : s.ring.tail ≤ s.ring.head + capacity
  published : (contents s.log).length = s.ring.tail
  readable : ∀ q b, s.ring.head ≤ q → (contents s.log)[q]? = some (some b) → s.ring.buf (q % capacity) = b
  fits : ∀ pre e post, s.log = pre ++ e :: post → e.Fits capacity (contents pre).length
  outside : ∀ job, s.job = some job → ∀ c ∈ job.copies, ∀ i, i < c.2.length →
    c.1 + i < capacity ∧ ∀ q, s.ring.head ≤ q → q < s.ring.tail → q % capacity ≠ c.1 + i
  call : ∀ data, s.job = none → s.step (.call data) = some s ∨
    ∃ job, s.step (.call data) = some { s with job := some job } ∧ job.data = data
  publish : ∀ job, s.job = some job → job.copies = [] → ∃ hole,
    s.step .publish = some {
      ring := { s.ring with tail := s.ring.tail + hole + job.data.length }
      job := none
      log := s.log ++ [{ hole := hole, data := job.data }] }

/-!
What a push decides.
-/

variable {k : Nat}

theorem nextLap_le (hk : k < 64) {p : Nat} (hp : p < 2 ^ 63) : Wrap.nextLap (2 ^ k) p ≤ 2 ^ 63 := by
  have hsplit : 2 ^ 63 = 2 ^ (63 - k) * 2 ^ k := by
    rw [← Nat.pow_add]
    congr 1
    omega
  have hlap : p / 2 ^ k < 2 ^ (63 - k) := by
    apply Nat.div_lt_of_lt_mul
    rw [Nat.mul_comm, ← hsplit]
    exact hp
  unfold Wrap.nextLap
  rw [hsplit]
  exact Nat.mul_le_mul_right _ hlap

theorem plan_none_of_large (hk : k < 64) {hd tl : Nat} {data : List UInt8} (hle : hd ≤ tl) (hlow : tl < 2 ^ 63)
    (hlen : data.length < 2 ^ 63) (hlarge : 2 ^ k < data.length) : plan (2 ^ k) hd tl data = none := by
  have hcap := capacity_le hk
  have hlap := nextLap_le hk hlow
  have hnext := Wrap.nextLap_eq tl (capacity_pos (k := k))
  have hpos := Nat.mod_lt tl (capacity_pos (k := k))
  have hposition : pos (2 ^ k) tl = tl % 2 ^ k := by
    have heq := pos_eq hk tl
    rw [Nat.mod_eq_of_lt (by omega)] at heq
    exact heq
  have haligned : nextLap (2 ^ k) tl = Wrap.nextLap (2 ^ k) tl := by
    have heq := nextLap_eq hk tl
    rw [Nat.mod_eq_of_lt (by omega), Nat.mod_eq_of_lt (by omega)] at heq
    exact heq
  have hadd : ∀ {a b}, a ≤ 2 ^ 63 → b < 2 ^ 63 → add64 a b = a + b := by
    intro a b ha hb
    apply Wrap.add_eq_of_lt
    omega
  have hroom : add64 hd (2 ^ k) = hd + 2 ^ k := by
    apply Wrap.add_eq_of_lt
    omega
  unfold plan
  dsimp only
  rw [hposition, hadd (by omega) hlen, if_neg (by omega), haligned, hadd hlap hlen, hroom, if_pos (by omega)]

theorem plan_spec (hk : k < 64) {hd tl : Nat} {data : List UInt8} {p : Plan} (hle : hd ≤ tl)
    (hroom : tl ≤ hd + 2 ^ k) (hlow : tl < 2 ^ 63) (hne : data ≠ []) (hlen : data.length < 2 ^ 63)
    (h : plan (2 ^ k) hd tl data = some p)
    : ∃ hole, Entry.Fits { hole := hole, data := data } (2 ^ k) tl ∧ p.tail = tl + hole + data.length ∧
        p.tail ≤ hd + 2 ^ k ∧ Cells.Placed (2 ^ k) (tl + hole) p.copies ∧ Cells.content p.copies = data := by
  have hcap := capacity_le hk
  have hsmall : data.length ≤ 2 ^ k := by
    by_cases hlarge : 2 ^ k < data.length
    . rw [plan_none_of_large hk hle hlow hlen hlarge] at h
      cases h
    . exact Nat.le_of_not_lt hlarge
  have hlap := nextLap_le hk hlow
  have hnext := Wrap.nextLap_eq tl (capacity_pos (k := k))
  have hpos := Nat.mod_lt tl (capacity_pos (k := k))
  have hhd : hd % 2 ^ 64 = hd := Nat.mod_eq_of_lt (by omega)
  have htl : tl % 2 ^ 64 = tl := Nat.mod_eq_of_lt (by omega)
  have hnohole : 0 < kHeaderBytes := by decide
  by_cases hfit : tl % 2 ^ k + data.length ≤ 2 ^ k
  . have hnonzero : data.length ≠ 0 := by
      intro hzero
      exact hne (List.eq_nil_of_length_eq_zero hzero)
    have hplan := plan_of_fits hk hle hroom hnonzero hfit
    rw [hhd, htl, h] at hplan
    split at hplan
    . cases hplan
    . next hfree =>
      cases hplan
      refine ⟨0, ⟨hnohole, Or.inl rfl, ?_⟩, ?_, ?_, placed_of_fits hfit, ?_⟩
      . intro hdata
        have hle : kHeaderBytes ≤ data.length := hdata
        show tl % 2 ^ k + kHeaderBytes ≤ 2 ^ k
        omega
      . exact Nat.mod_eq_of_lt (by omega)
      . show (tl + data.length) % 2 ^ 64 ≤ hd + 2 ^ k
        rw [Nat.mod_eq_of_lt (by omega)]
        omega
      . simp [Cells.content]
  . have hplan := @plan_of_crosses k hk hd tl data hsmall (Nat.lt_of_not_le hfit)
    rw [hhd, htl, h, Nat.mod_eq_of_lt (a := hd + 2 ^ k) (by omega),
      Nat.mod_eq_of_lt (a := Wrap.nextLap (2 ^ k) tl + data.length) (by omega)] at hplan
    split at hplan
    . cases hplan
    . next hfree =>
      split at hplan
      . next hhead =>
        -- the head stands before the physical end
        cases hplan
        refine ⟨0, ⟨hnohole, Or.inl rfl, ?_⟩, ?_, ?_, ?_, content_crossing _ _ _⟩
        . intro _
          show tl % 2 ^ k + kHeaderBytes ≤ 2 ^ k
          omega
        . exact Nat.mod_eq_of_lt (by omega)
        . show (tl + data.length) % 2 ^ 64 ≤ hd + 2 ^ k
          rw [Nat.mod_eq_of_lt (by omega)]
          omega
        . exact placed_crossing hsmall (Nat.lt_of_not_le hfit) hhead
      . next hhead =>
        -- the whole message stands at the begin of the next lap
        cases hplan
        have hstart : tl + (2 ^ k - tl % 2 ^ k) = Wrap.nextLap (2 ^ k) tl := hnext.symm
        refine ⟨2 ^ k - tl % 2 ^ k, ⟨by dsimp only; omega, Or.inr ?_, ?_⟩, ?_, ?_, ?_, ?_⟩
        . show (tl + (2 ^ k - tl % 2 ^ k)) % 2 ^ k = 0
          rw [hstart, Wrap.nextLap_mod_self]
        . intro hdata
          show (tl + (2 ^ k - tl % 2 ^ k)) % 2 ^ k + kHeaderBytes ≤ 2 ^ k
          rw [hstart, Wrap.nextLap_mod_self]
          have hle : kHeaderBytes ≤ data.length := hdata
          omega
        . show Wrap.nextLap (2 ^ k) tl + data.length = _
          omega
        . show Wrap.nextLap (2 ^ k) tl + data.length ≤ _
          omega
        . rw [hstart]
          exact placed_skip hsmall
        . simp [Cells.content]

/-!
What is known about the ring and about a push that is under way.
-/

theorem contents_concat (log : List Entry) (e : Entry)
    : contents (log ++ [e]) = contents log ++ (List.replicate e.hole none ++ e.data.map some) := by
  unfold contents
  rw [List.flatMap_append, List.flatMap_singleton]

theorem getElem?_contents_concat {log : List Entry} {e : Entry} {q : Nat} {b : UInt8}
    (hread : (contents (log ++ [e]))[q]? = some (some b))
    : (contents log)[q]? = some (some b) ∨
      ∃ i, q = (contents log).length + e.hole + i ∧ e.data[i]? = some b := by
  -- A byte that can be read stands in an older entry, or behind the hole of the last one.
  rw [contents_concat] at hread
  by_cases hold : q < (contents log).length
  . rw [List.getElem?_append_left hold] at hread
    exact Or.inl hread
  . rw [List.getElem?_append_right (Nat.le_of_not_lt hold)] at hread
    by_cases hskip : q - (contents log).length < e.hole
    . rw [List.getElem?_append_left (by simpa using hskip), List.getElem?_replicate, if_pos hskip] at hread
      cases hread
    . rw [List.getElem?_append_right (by simpa using hskip), List.length_replicate, List.getElem?_map,
        Option.map_eq_some_iff] at hread
      apply Or.inr
      refine ⟨q - (contents log).length - e.hole, by omega, ?_⟩
      cases hread with
      | intro b' hbyte =>
        cases hbyte.2
        exact hbyte.1

theorem split_concat {log pre post : List Entry} {e e' : Entry} (h : log ++ [e] = pre ++ e' :: post)
    : (pre = log ∧ e' = e) ∨ ∃ post', log = pre ++ e' :: post' := by
  cases List.eq_nil_or_concat post with
  | inl hnil =>
    rw [hnil] at h
    have hlast := List.append_inj' h rfl
    cases hlast.2
    exact Or.inl ⟨hlast.1.symm, rfl⟩
  | inr hconcat =>
    obtain ⟨post', last, hpost⟩ := hconcat
    rw [hpost, List.concat_eq_append, ← List.cons_append, ← List.append_assoc] at h
    exact Or.inr ⟨post', (List.append_inj' h rfl).1⟩

/--
The bytes of `done` have been copied behind the hole, the copies of the others stay within the room there is.
-/
structure Job.Going (job : Job) (k : Nat) (ring : SPSCByteRing) (hole : Nat) (done : List UInt8) : Prop where
  fits : Entry.Fits { hole := hole, data := job.data } (2 ^ k) ring.tail
  tail : job.tail = ring.tail + hole + job.data.length
  room : job.tail ≤ ring.head + 2 ^ k
  tail_lt : job.tail < 2 ^ 64
  placed : Cells.Placed (2 ^ k) (ring.tail + hole + done.length) job.copies
  data : done ++ Cells.content job.copies = job.data
  copied : Cells.stream ring.buf (2 ^ k) (ring.tail + hole) done.length = done

structure Inv (k : Nat) (s : Shared) : Prop where
  capacity : s.ring.capacity = 2 ^ k
  order : s.ring.head ≤ s.ring.tail
  room : s.ring.tail ≤ s.ring.head + 2 ^ k
  tail_lt : s.ring.tail < 2 ^ 64
  published : (contents s.log).length = s.ring.tail
  readable : ∀ q b, s.ring.head ≤ q → (contents s.log)[q]? = some (some b) → s.ring.buf (q % 2 ^ k) = b
  fits : ∀ pre e post, s.log = pre ++ e :: post → e.Fits (2 ^ k) (contents pre).length
  job : ∀ job, s.job = some job → ∃ hole done, job.Going k s.ring hole done

variable {s s' : Shared}

theorem Inv.init (k : Nat) (buf : Nat → UInt8) : Inv k (Shared.init (2 ^ k) buf) := by
  constructor
  . rfl
  . exact Nat.le_refl 0
  . exact Nat.zero_le _
  . show 0 < 2 ^ 64
    decide
  . rfl
  . intro q b _ hread
    cases hread
  . intro pre e post hlog
    exact absurd hlog.symm (by simp [Shared.init])
  . intro job hjob
    cases hjob

theorem Inv.call (h : Inv k s) (hk : k < 64) {data : List UInt8} (hlow : s.Low (.call data))
    (hstep : s.stepCall data = some s') : Inv k s' := by
  unfold Shared.stepCall at hstep
  split at hstep
  . cases hstep
  . split at hstep
    . cases hstep
      exact h
    . next p hplan =>
      cases hstep
      rw [h.capacity] at hplan
      obtain ⟨hole, hfits, htail, hroom, hplaced, hcontent⟩ := plan_spec hk h.order h.room hlow.1 hlow.2.1
        hlow.2.2 hplan
      have hcap := capacity_le hk
      have horder := h.order
      have hsmall := hlow.1
      refine ⟨h.capacity, h.order, h.room, h.tail_lt, h.published, h.readable, h.fits, ?_⟩
      intro job hjob
      cases hjob
      refine ⟨hole, [], hfits, htail, hroom, ?_, hplaced, hcontent, rfl⟩
      show p.tail < 2 ^ 64
      omega

theorem Inv.copy (h : Inv k s) (hstep : s.stepCopy = some s') : Inv k s' := by
  unfold Shared.stepCopy at hstep
  split at hstep
  . cases hstep
  . next job hjob =>
    split at hstep
    . cases hstep
    . next c copies hcopies =>
      cases hstep
      obtain ⟨hole, done, hgoing⟩ := h.job job hjob
      have hplaced := hgoing.placed
      have hdata := hgoing.data
      rw [hcopies] at hplaced hdata
      rw [Cells.content_cons] at hdata
      have hlen := congrArg List.length hdata
      rw [List.length_append, List.length_append] at hlen
      have htail := hgoing.tail
      have hroom := hgoing.room
      have horder := h.order
      refine ⟨h.capacity, h.order, h.room, h.tail_lt, h.published, ?_, h.fits, ?_⟩
      . -- what is copied now comes behind all that can be read
        intro q b hq hread
        have hold := h.readable q b hq hread
        have hle : s.ring.head ≤ q := hq
        have hlt : q < s.ring.tail := by
          rw [← h.published]
          exact (List.getElem?_eq_some_iff.1 hread).1
        have hkeep := @Cells.Placed.head_before UInt8 (2 ^ k) _ q 1 c copies hplaced s.ring.buf (by omega) (by omega)
        have hcell : Cells.write s.ring.buf c.1 c.2 (q % 2 ^ k) = s.ring.buf (q % 2 ^ k) := by
          simpa [Cells.stream] using hkeep
        exact hcell.trans hold
      . intro job' hjob'
        cases hjob'
        refine ⟨hole, done ++ c.2, hgoing.fits, hgoing.tail, hgoing.room, hgoing.tail_lt, ?_, ?_, ?_⟩
        . rw [List.length_append, ← Nat.add_assoc]
          exact hplaced.2
        . rw [List.append_assoc]
          exact hdata
        . have hbefore := hplaced.head_before s.ring.buf (Nat.le_refl _) (by omega)
          have hself := hplaced.head_self s.ring.buf
          show Cells.stream (Cells.write s.ring.buf c.1 c.2) (2 ^ k) (s.ring.tail + hole) _ = _
          rw [List.length_append, Cells.stream_add, hbefore, hgoing.copied, hself]

theorem Inv.publish (h : Inv k s) (hstep : s.stepPublish = some s') : Inv k s' := by
  unfold Shared.stepPublish at hstep
  split at hstep
  . cases hstep
  . next job hjob =>
    split at hstep
    . next hcopies =>
      cases hstep
      obtain ⟨hole, done, hgoing⟩ := h.job job hjob
      have htail := hgoing.tail
      have horder := h.order
      have hpublished := h.published
      have hdata : done = job.data := by
        have hall := hgoing.data
        rw [hcopies] at hall
        simpa [Cells.content] using hall
      have hhole : job.tail - (s.ring.tail + job.data.length) = hole := by omega
      dsimp only
      rw [hhole]
      refine ⟨h.capacity, ?_, hgoing.room, hgoing.tail_lt, ?_, ?_, ?_, ?_⟩
      . show s.ring.head ≤ job.tail
        omega
      . show (contents (s.log ++ [{ hole := hole, data := job.data }])).length = job.tail
        rw [contents_concat, List.length_append, List.length_append, List.length_replicate, List.length_map]
        dsimp only
        omega
      . intro q b hq hread
        cases getElem?_contents_concat hread with
        | inl hold => exact h.readable q b hq hold
        | inr hnew =>
          obtain ⟨i, hq', hbyte⟩ := hnew
          rw [← hdata, ← hgoing.copied] at hbyte
          rw [hq', hpublished]
          exact Cells.getElem?_stream hbyte
      . intro pre e post hlog
        cases split_concat hlog with
        | inl hlast =>
          rw [hlast.1, hlast.2, hpublished]
          exact hgoing.fits
        | inr hold =>
          cases hold with
          | intro post' hlog' => exact h.fits pre e post' hlog'
      . intro job' hjob'
        cases hjob'
    . cases hstep

theorem Inv.release (h : Inv k s) {bytes : Nat} (hstep : s.stepRelease bytes = some s') : Inv k s' := by
  unfold Shared.stepRelease at hstep
  split at hstep
  . next hused =>
    cases hstep
    have horder := h.order
    have hlt := h.tail_lt
    have hsub : sub64 s.ring.tail s.ring.head = s.ring.tail - s.ring.head := Wrap.sub_eq_of_le h.order h.tail_lt
    rw [hsub] at hused
    have hhead : (s.ring.readRelease bytes).head = s.ring.head + bytes := Wrap.add_eq_of_lt (by omega)
    have hroom := h.room
    refine ⟨h.capacity, ?_, ?_, h.tail_lt, h.published, ?_, h.fits, ?_⟩
    . show (s.ring.readRelease bytes).head ≤ s.ring.tail
      omega
    . show s.ring.tail ≤ (s.ring.readRelease bytes).head + 2 ^ k
      omega
    . intro q b hq hread
      have hle : (s.ring.readRelease bytes).head ≤ q := hq
      exact h.readable q b (by omega) hread
    . intro job hjob
      obtain ⟨hole, done, hgoing⟩ := h.job job hjob
      have hfree := hgoing.room
      refine ⟨hole, done, hgoing.fits, hgoing.tail, ?_, hgoing.tail_lt, hgoing.placed, hgoing.data, hgoing.copied⟩
      show job.tail ≤ (s.ring.readRelease bytes).head + 2 ^ k
      omega
  . cases hstep

theorem Inv.step (h : Inv k s) (hk : k < 64) {a : Access} (hlow : s.Low a) (hstep : s.step a = some s')
    : Inv k s' := by
  cases a with
  | call data => exact h.call hk hlow hstep
  | copy => exact h.copy hstep
  | publish => exact h.publish hstep
  | release bytes => exact h.release hstep

theorem Inv.run (hk : k < 64) (buf : Nat → UInt8) {as : List Access}
    (hlow : Run.Along Shared.step Shared.Low (Shared.init (2 ^ k) buf) as)
    (hrun : Run.exec Shared.step (Shared.init (2 ^ k) buf) as = some s) : Inv k s := by
  apply Run.exec_inv _ (Inv.init k buf) hlow hrun
  intro s₁ a s₂ h hlow hstep
  exact h.step hk hlow hstep

theorem Inv.unharmed (h : Inv k s) : Unharmed (2 ^ k) s := by
  refine ⟨h.order, h.room, h.published, h.readable, h.fits, ?_, ?_, ?_⟩
  . intro job hjob c hc i hi
    obtain ⟨hole, done, hgoing⟩ := h.job job hjob
    obtain ⟨hlt, j, hj, hcell⟩ := hgoing.placed.cell hc hi
    have hlen := congrArg List.length hgoing.data
    rw [List.length_append] at hlen
    have htail := hgoing.tail
    have hroom := hgoing.room
    refine ⟨hlt, ?_⟩
    intro q hle hq heq
    -- the copy goes to a position of the same lap, behind all that can be read
    rw [hcell] at heq
    have hsame := Wrap.eq_of_mod_eq (W := 2 ^ k) (by omega) (by omega) heq.symm
    omega
  . intro data hjob
    unfold Shared.step Shared.stepCall
    dsimp only
    rw [hjob]
    cases plan s.ring.capacity s.ring.head s.ring.tail data with
    | none => exact Or.inl rfl
    | some p => exact Or.inr ⟨_, rfl, rfl⟩
  . intro job hjob hcopies
    obtain ⟨hole, done, hgoing⟩ := h.job job hjob
    have htail := hgoing.tail
    have hhole : job.tail - (s.ring.tail + job.data.length) = hole := by omega
    refine ⟨hole, ?_⟩
    unfold Shared.step Shared.stepPublish
    dsimp only
    rw [hjob]
    dsimp only
    rw [hcopies]
    dsimp only
    rw [hhole, htail]

/--
In every state that pushes and releases can lead to, nothing that is still to be read has been overwritten, and
nothing that can be read is about to be.
-/
theorem push_unharmed (hk : k < 64) (buf : Nat → UInt8) (as : List Access) (s : Shared)
    (hlow : Run.Along Shared.step Shared.Low (Shared.init (2 ^ k) buf) as)
    (hrun : Run.exec Shared.step (Shared.init (2 ^ k) buf) as = some s) : Unharmed (2 ^ k) s := by
  have hinv := Inv.run hk buf hlow hrun
  exact hinv.unharmed

/--
The second message leaves a hole behind the first one. The fourth one crosses the physical end, and the consumer releases
bytes after its head has been copied.
-/
def overEnd : List Access :=
  [.call (List.replicate 24 1), .copy, .publish, .release 24, .call (List.replicate 12 2), .copy, .publish, .release 8,
    .call (List.replicate 8 3), .copy, .publish, .release 14, .call (List.replicate 14 4), .copy, .release 3]

theorem push_overEnd_unharmed
    : ∃ s, Run.exec Shared.step (Shared.init (2 ^ 5) (fun _ => 0)) overEnd = some s ∧ s.ring.head = 49 ∧
        s.ring.tail = 52 ∧ s.job.map Job.copies = some [(30, [4, 4]), (0, [4, 4])] ∧ Unharmed (2 ^ 5) s := by
  refine ⟨_, rfl, by decide, by decide, by decide, ?_⟩
  apply push_unharmed (by decide) (fun _ => 0) overEnd
  . decide
  . rfl

end SPSCByteRing

end NebulaXTrader
