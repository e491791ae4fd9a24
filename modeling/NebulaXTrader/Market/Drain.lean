import NebulaXTrader.Market.Delivery

/-!
This module contains the theorem that a call of `parse_available` that runs alone empties the ring, after which there
is room for any message, so that the unpacker's loop around `push` does not wait forever.
-/

namespace NebulaXTrader

namespace BytePipeline

open SPSCByteRing (pos nextLap plan acquire)

/--
The next step of the parser leaves its loop.
-/
def breaks (s : BytePipeline) : Bool :=
  match s.parser with
  | .loadUsed n => n ≠ kHeadBytes ∧ sub64 s.tail s.head < kHeadBytes
  | .readHead _ used =>
    let bodyLen := Positional.word ((Cells.read s.buf (pos s.capacity s.head) kHeadBytes).drop 8)
    ¬ (bodyLen < 1 ∨ bodyLen > 200) ∧ used < kHeadBytes + bodyLen
  | .testHole => nextLap s.capacity s.head > s.tail
  | .verify _ bodyLen _ => sub64 s.tail s.head < kHeadBytes + bodyLen
  | _ => false

/--
A call of `parse_available` while nothing is published, up to where it returns.
-/
def parseAvailable (fuel : Nat) (s : BytePipeline) : Option BytePipeline :=
  match fuel with
  | 0 => none
  | fuel + 1 =>
    match s.stepParser with
    | none => none
    | some s' => if s.breaks then some s' else parseAvailable fuel s'

/--
The call has taken all there was, and there is room for whatever message comes next.
-/
structure Drained (s : BytePipeline) : Prop where
  empty : s.head = s.tail
  fed : s.fed = s.pushed.map (fun m => (m.seq, m.body))
  accepts : ∀ m : Message, (plan s.capacity s.head s.tail m.frame).isSome

/--
The call has read the positions since the last store of one.
-/
def Alone (s : BytePipeline) : Prop :=
  match s.parser with
  | .loadUsed n => n = acquire s.capacity s.head s.tail kHeadBytes
  | .testHole =>
    acquire s.capacity s.head s.tail kHeadBytes ≠ kHeadBytes ∧ kHeadBytes ≤ sub64 s.tail s.head
  | _ => True

/--
The call goes on from `s` to `s'`.
-/
def Continues (s s' : BytePipeline) : Prop := ∃ n, ∀ fuel, parseAvailable (fuel + n) s = parseAvailable fuel s'

variable {k H T : Nat} {ms messages : List Message} {s s₁ s' : BytePipeline}

theorem parseAvailable_unique {fuel fuel' : Nat} {r r' : BytePipeline} (h : parseAvailable fuel s = some r)
    (h' : parseAvailable fuel' s = some r') : r = r' := by
  induction fuel generalizing s fuel' with
  | zero => cases h
  | succ fuel ih =>
    cases fuel' with
    | zero => cases h'
    | succ fuel' =>
      rw [parseAvailable] at h h'
      cases hstep : s.stepParser with
      | none =>
        rw [hstep] at h
        cases h
      | some s₁ =>
        rw [hstep] at h h'
        dsimp only at h h'
        cases hbreaks : s.breaks with
        | true =>
          rw [hbreaks, if_pos rfl] at h h'
          cases h
          cases h'
          rfl
        | false =>
          rw [hbreaks, if_neg (by decide)] at h h'
          exact ih h h'

theorem exists_stepParser (s : BytePipeline) : ∃ s', s.stepParser = some s' := by
  unfold BytePipeline.stepParser
  dsimp only
  repeat' split
  all_goals exact ⟨_, rfl⟩

theorem stepParser_keeps (h : s.stepParser = some s')
    : s'.tail = s.tail ∧ s'.pushed = s.pushed ∧ s'.unpacker = s.unpacker ∧ s'.todo = s.todo := by
  unfold BytePipeline.stepParser at h
  dsimp only at h
  repeat' split at h
  all_goals
    cases h
    exact ⟨rfl, rfl, rfl, rfl⟩

theorem stepParser_of_breaks (hbreaks : s.breaks = true) : s.stepParser = some { s with parser := .acquireHead } := by
  unfold BytePipeline.breaks at hbreaks
  unfold BytePipeline.stepParser
  split at hbreaks
  . next n hpc =>
    have htest := of_decide_eq_true hbreaks
    rw [hpc]
    dsimp only
    rw [if_neg htest.1, if_neg (Nat.not_le.2 htest.2)]
  . next n used hpc =>
    have htest := of_decide_eq_true hbreaks
    rw [hpc]
    dsimp only
    rw [if_neg htest.1, if_pos htest.2]
  . next hpc =>
    have htest := of_decide_eq_true hbreaks
    rw [hpc]
    exact if_pos htest
  . next seq bodyLen n hpc =>
    have htest := of_decide_eq_true hbreaks
    rw [hpc]
    exact if_pos htest
  . cases hbreaks

theorem Alone.of_acquireHead (hpc : s.parser = .acquireHead) : s.Alone := by
  unfold Alone
  rw [hpc]
  trivial

theorem Alone.hollow (h : s.Alone) : s.Hollow := by
  intro hpc _
  unfold Alone at h
  rw [hpc] at h
  obtain ⟨hshort, hused⟩ := h
  unfold SPSCByteRing.acquire kHeadBytes at hshort
  unfold kHeadBytes at hused ⊢
  dsimp only at hshort
  rw [if_neg (by omega)] at hshort
  split at hshort
  . split at hshort
    . omega
    . omega
  . split at hshort
    . omega
    . omega

theorem Alone.stepParser (h : s.Alone) (hstep : s.stepParser = some s') : s'.Alone := by
  unfold BytePipeline.stepParser at hstep
  dsimp only at hstep
  split at hstep
  . cases hstep
    rfl
  . next n hpc =>
    unfold Alone at h
    rw [hpc] at h
    split at hstep
    . cases hstep
      trivial
    . next hshort =>
      split at hstep
      . next hused =>
        cases hstep
        exact ⟨h ▸ hshort, hused⟩
      . cases hstep
        trivial
  all_goals repeat' split at hstep
  all_goals
    cases hstep
    trivial

theorem Continues.refl (s : BytePipeline) : Continues s s := ⟨0, fun _ => rfl⟩

theorem Continues.trans (h : Continues s s₁) (h' : Continues s₁ s') : Continues s s' := by
  cases h with
  | intro n hn =>
    cases h' with
    | intro n' hn' =>
      refine ⟨n' + n, ?_⟩
      intro fuel
      rw [← Nat.add_assoc, hn, hn']

theorem Continues.head (hstep : s.stepParser = some s₁) (hbreaks : s.breaks = false) (h : Continues s₁ s')
    : Continues s s' := by
  cases h with
  | intro n hn =>
    refine ⟨n + 1, ?_⟩
    intro fuel
    rw [← Nat.add_assoc, parseAvailable, hstep, ← hn]
    dsimp only
    rw [hbreaks]
    rfl

theorem Continues.returns (h : Continues s s') {fuel : Nat} {r : BytePipeline}
    (hr : parseAvailable fuel s' = some r) : ∃ fuel, parseAvailable fuel s = some r := by
  cases h with
  | intro n hn => exact ⟨fuel + n, (hn fuel).trans hr⟩

/-!
The rounds of a call. Between them the program counter is `acquireHead`.
-/

theorem Flow.continues_readHead (h : s.Flow k H T ms messages) (hk' : k < 64) (hpc : s.parser = .acquireHead)
    {m : Message} {rest : List Message} (hms : ms = m :: rest) (hfits : H % 2 ^ k + kHeadBytes ≤ 2 ^ k)
    (hnext : Continues { s with parser := .acquireMessage m.seq m.body.length } s') : Continues s s' := by
  have hlt := h.message hms hfits
  have hlength := m.length_frame
  have hbody := m.body_pos
  have hbody' := m.body_le
  have hused := h.used hk'
  have hread := h.read_head hk' hms hfits
  have hheader : kHeadBytes = 10 := rfl
  have hacquire : SPSCByteRing.acquire s.capacity s.head s.tail kHeadBytes = kHeadBytes := by
    rw [h.acquire hk']
    omega
  dsimp only at hread
  have hacquired : s.stepParser = some { s with parser := .loadUsed kHeadBytes } := by
    unfold BytePipeline.stepParser
    rw [hpc]
    dsimp only
    rw [hacquire]
  have hloaded : ({ s with parser := .loadUsed kHeadBytes }).stepParser =
      some { s with parser := .readHead kHeadBytes (T - H) } := by
    unfold BytePipeline.stepParser
    dsimp only
    rw [if_pos rfl, hused]
  have hparsed : ({ s with parser := .readHead kHeadBytes (T - H) }).stepParser =
      some { s with parser := .acquireMessage m.seq m.body.length } := by
    unfold BytePipeline.stepParser
    dsimp only
    rw [hread.1, hread.2, if_neg (by omega), if_neg (by omega)]
  apply Continues.head hacquired
  . unfold BytePipeline.breaks
    rw [hpc]
  . apply Continues.head hloaded
    . simp [BytePipeline.breaks]
    . apply Continues.head hparsed
      . simp only [BytePipeline.breaks, hread.2]
        rw [decide_eq_false_iff_not]
        omega
      . exact hnext

theorem Flow.continues_feed (h : s.Flow k H T ms messages) (hk' : k < 64) (hunfed : s.parser.unfed ms = ms)
    {m : Message} {rest : List Message} (hms : ms = m :: rest) (hfits : H % 2 ^ k + m.frame.length ≤ 2 ^ k)
    : ∃ s', Continues { s with parser := .feed m.seq m.body.length } s' ∧
        s'.Flow k (H + m.frame.length) T rest messages ∧ s'.parser = .acquireHead := by
  have hlength := m.length_frame
  have hhead : HeadOf k H m m.seq m.body.length := ⟨rfl, rfl, by unfold kHeadBytes; omega⟩
  have hpass := h.pass hunfed hms hhead
  have hrelease := hpass.release hms (by rw [hms]; rfl) hhead.fits
  have hread := h.read_body hk' hms hfits
  have hfed : ({ s with parser := .feed m.seq m.body.length }).stepParser =
      some { s with
        fed := s.fed ++ [(m.seq, m.body)]
        parser := .release (kHeadBytes + m.body.length) } := by
    unfold BytePipeline.stepParser
    dsimp only
    rw [hread]
  refine ⟨_, ?_, hrelease, rfl⟩
  apply Continues.head hfed rfl
  apply Continues.head _ rfl (Continues.refl _)
  unfold BytePipeline.stepParser
  dsimp only
  rw [hlength]
  rfl

theorem Flow.continues_verify (h : s.Flow k H T ms messages) (hk : 9 ≤ k) (hk' : k < 64)
    (hunfed : s.parser.unfed ms = ms) {m : Message} {rest : List Message} (hms : ms = m :: rest)
    (hfits : H % 2 ^ k + kHeadBytes ≤ 2 ^ k) (hcross : 2 ^ k < H % 2 ^ k + m.frame.length)
    : ∃ s', Continues { s with parser := .verify m.seq m.body.length (2 ^ k - H % 2 ^ k) } s' ∧
        s'.Flow k (H + m.frame.length) T rest messages ∧ s'.parser = .acquireHead := by
  have hlength := m.length_frame
  have hmod := Nat.mod_lt H (SPSCByteRing.capacity_pos (k := k))
  have hhead : HeadOf k H m m.seq m.body.length := ⟨rfl, rfl, hfits⟩
  have hpass := h.pass hunfed hms hhead
  have hrelease := hpass.release hms (by rw [hms]; rfl) hfits
  have hlt := (h.message hms hfits).2
  have hused := h.used hk'
  have hheader : kHeadBytes = 10 := rfl
  have hfirst := h.read_front hk' hms hfits (n := 2 ^ k - H % 2 ^ k) (by omega) (by omega)
  have hsecond := h.read_wrapped hk hms hfits hcross
  have htake : (m.frame.take (2 ^ k - H % 2 ^ k)).length = 2 ^ k - H % 2 ^ k := by
    rw [List.length_take]
    omega
  have hverified : ({ s with parser := .verify m.seq m.body.length (2 ^ k - H % 2 ^ k) }).stepParser =
      some { s with parser := .copyFirst m.seq m.body.length (2 ^ k - H % 2 ^ k) } := by
    unfold BytePipeline.stepParser
    dsimp only
    rw [hused, if_neg (by omega)]
  have hcopied : ({ s with parser := .copyFirst m.seq m.body.length (2 ^ k - H % 2 ^ k) }).stepParser =
      some { s with parser := .copySecond m.seq m.body.length (m.frame.take (2 ^ k - H % 2 ^ k)) } := by
    unfold BytePipeline.stepParser
    dsimp only
    rw [hfirst]
  have hjoined : ({ s with
        parser := .copySecond m.seq m.body.length (m.frame.take (2 ^ k - H % 2 ^ k)) }).stepParser =
      some { s with parser := .feedTmp m.seq m.body.length m.frame } := by
    unfold BytePipeline.stepParser
    dsimp only
    rw [htake, hheader, ← hlength, hsecond, List.take_append_drop]
  have hfed : ({ s with parser := .feedTmp m.seq m.body.length m.frame }).stepParser =
      some { s with
        fed := s.fed ++ [(m.seq, m.body)]
        parser := .release (kHeadBytes + m.body.length) } := by
    have hbody : m.frame.drop kHeadBytes = m.body := m.drop_frame
    unfold BytePipeline.stepParser
    dsimp only
    rw [hbody, List.take_length]
  refine ⟨_, ?_, hrelease, rfl⟩
  apply Continues.head hverified
  . simp only [BytePipeline.breaks, hused]
    rw [decide_eq_false_iff_not]
    omega
  . apply Continues.head hcopied rfl
    apply Continues.head hjoined rfl
    apply Continues.head hfed rfl
    apply Continues.head _ rfl (Continues.refl _)
    unfold BytePipeline.stepParser
    dsimp only
    rw [hlength]
    rfl

theorem Flow.continues_message (h : s.Flow k H T ms messages) (hk : 9 ≤ k) (hk' : k < 64)
    (hpc : s.parser = .acquireHead) {m : Message} {rest : List Message} (hms : ms = m :: rest)
    (hfits : H % 2 ^ k + kHeadBytes ≤ 2 ^ k)
    : ∃ s', Continues s s' ∧ s'.Flow k (H + m.frame.length) T rest messages ∧ s'.parser = .acquireHead := by
  have hlength := m.length_frame
  have hlt := (h.message hms hfits).2
  have hunfed : s.parser.unfed ms = ms := by
    rw [hpc]
    rfl
  have hacquire := h.acquire hk' (kHeadBytes + m.body.length)
  have hheader : kHeadBytes = 10 := rfl
  by_cases hwhole : H % 2 ^ k + m.frame.length ≤ 2 ^ k
  . have hnext : ({ s with parser := .acquireMessage m.seq m.body.length }).stepParser =
        some { s with parser := .feed m.seq m.body.length } := by
      unfold BytePipeline.stepParser
      dsimp only
      rw [hacquire, if_pos (by omega)]
    obtain ⟨s', hcontinues, hflow⟩ := h.continues_feed hk' hunfed hms hwhole
    exact ⟨s', h.continues_readHead hk' hpc hms hfits (hcontinues.head hnext rfl), hflow⟩
  . have hn : min (min (kHeadBytes + m.body.length) (T - H)) (2 ^ k - H % 2 ^ k) = 2 ^ k - H % 2 ^ k := by omega
    have hnext : ({ s with parser := .acquireMessage m.seq m.body.length }).stepParser =
        some { s with parser := .verify m.seq m.body.length (2 ^ k - H % 2 ^ k) } := by
      unfold BytePipeline.stepParser
      dsimp only
      rw [hacquire, hn, if_neg (by omega)]
    obtain ⟨s', hcontinues, hflow⟩ := h.continues_verify hk hk' hunfed hms hfits (Nat.lt_of_not_le hwhole)
    exact ⟨s', h.continues_readHead hk' hpc hms hfits (hcontinues.head hnext rfl), hflow⟩

theorem Flow.nextLap_lt (h : s.Flow k H T ms messages) (hne : ms ≠ []) (hfar : 2 ^ k < H % 2 ^ k + kHeadBytes)
    : Wrap.nextLap (2 ^ k) H + kHeadBytes ≤ T := by
  cases hms : ms with
  | nil => exact absurd hms hne
  | cons m rest =>
    have hlt := h.lt hms
    have hlength := m.length_frame
    have hheader : kHeadBytes = 10 := rfl
    rw [place_of_not_fits (Nat.not_le.2 hfar)] at hlt
    omega

theorem Flow.aligned (h : s.Flow k H T ms messages) (hk' : k < 64)
    : nextLap s.capacity s.head = Wrap.nextLap (2 ^ k) H % 2 ^ 64 := by
  rw [h.capacity, h.head]
  exact SPSCByteRing.nextLap_eq hk' H

theorem Flow.nextLap_le_tail (h : s.Flow k H T ms messages) (hk' : k < 64) (hne : ms ≠ [])
    (hfar : 2 ^ k < H % 2 ^ k + kHeadBytes) : nextLap s.capacity s.head ≤ s.tail := by
  -- Where the head is too close to the physical end for a message, the tail is in the next lap.
  have hlt := h.nextLap_lt hne hfar
  have hlap := Wrap.nextLap_eq H (SPSCByteRing.capacity_pos (k := k))
  have hmod := Nat.mod_lt H (SPSCByteRing.capacity_pos (k := k))
  have hroom := h.room
  have htail : T = Wrap.nextLap (2 ^ k) H + (T - Wrap.nextLap (2 ^ k) H) := by omega
  rw [h.aligned hk', h.tail, htail, Wrap.nextLap_add_mod (SPSCByteRing.capacity_dvd hk') H (by omega)]
  omega

theorem Flow.continues_skip (h : s.Flow k H T ms messages) (hk : 9 ≤ k) (hk' : k < 64)
    (hpc : s.parser = .acquireHead) (hne : ms ≠ []) (hfar : 2 ^ k < H % 2 ^ k + kHeadBytes)
    : ∃ s', Continues s s' ∧ s'.Flow k (Wrap.nextLap (2 ^ k) H) T ms messages ∧ s'.parser = .acquireHead := by
  have hpos := SPSCByteRing.capacity_pos (k := k)
  have hlap := Wrap.nextLap_eq H hpos
  have hheader : kHeadBytes = 10 := rfl
  have hunfed : s.parser.unfed ms = ms := by
    rw [hpc]
    rfl
  have hlt := h.nextLap_lt hne hfar
  have hused := h.used hk'
  have hskip := h.skip hk hunfed hne hfar
  have hrest : SPSCByteRing.acquire s.capacity s.head s.tail kHeadBytes = 2 ^ k - H % 2 ^ k := by
    rw [h.acquire hk']
    omega
  have haligned := h.aligned hk'
  have hpublished := h.nextLap_le_tail hk' hne hfar
  have hbytes : sub64 (nextLap s.capacity s.head) s.head = 2 ^ k - H % 2 ^ k := by
    rw [haligned, h.head, SPSCByteRing.sub64_eq (by omega) (by omega)]
    omega
  have hacquired : s.stepParser = some { s with parser := .loadUsed (2 ^ k - H % 2 ^ k) } := by
    unfold BytePipeline.stepParser
    rw [hpc]
    dsimp only
    rw [hrest]
  have hloaded : ({ s with parser := .loadUsed (2 ^ k - H % 2 ^ k) }).stepParser =
      some { s with parser := .testHole } := by
    unfold BytePipeline.stepParser
    dsimp only
    rw [hused, if_neg (by omega), if_pos (by omega)]
  have htested : ({ s with parser := .testHole }).stepParser =
      some { s with parser := .skip (2 ^ k - H % 2 ^ k) } := by
    unfold BytePipeline.stepParser
    dsimp only
    rw [hbytes, if_neg (Nat.not_lt.2 hpublished)]
  refine ⟨_, ?_, hskip, rfl⟩
  apply Continues.head hacquired
  . unfold BytePipeline.breaks
    rw [hpc]
  . apply Continues.head hloaded
    . simp only [BytePipeline.breaks, hused]
      rw [decide_eq_false_iff_not]
      omega
    . apply Continues.head htested
      . simp only [BytePipeline.breaks]
        rw [decide_eq_false_iff_not]
        exact Nat.not_lt.2 hpublished
      . exact Continues.head rfl rfl (Continues.refl _)

theorem Flow.returns (h : s.Flow k H T [] messages) (hk' : k < 64) (hpc : s.parser = .acquireHead)
    : parseAvailable 2 s = some s := by
  have hsame : H = T := h.empty_iff.2 rfl
  have hused := h.used hk'
  have hheader : kHeadBytes = 10 := rfl
  have hnone : SPSCByteRing.acquire s.capacity s.head s.tail kHeadBytes = 0 := by
    rw [h.acquire hk']
    omega
  have hacquired : s.stepParser = some { s with parser := .loadUsed 0 } := by
    unfold BytePipeline.stepParser
    rw [hpc]
    dsimp only
    rw [hnone]
  have hloaded : ({ s with parser := .loadUsed 0 }).stepParser = some s := by
    unfold BytePipeline.stepParser
    dsimp only
    rw [hused, if_neg (by omega), if_neg (by omega), ← hpc]
  have hgoes : s.breaks = false := by
    unfold BytePipeline.breaks
    rw [hpc]
  have hbreaks : ({ s with parser := .loadUsed 0 }).breaks = true := by
    simp only [BytePipeline.breaks, hused]
    rw [decide_eq_true_iff]
    omega
  rw [parseAvailable, hacquired]
  dsimp only
  rw [hgoes, if_neg (by decide), parseAvailable, hloaded]
  dsimp only
  rw [hbreaks, if_pos rfl]

theorem parseAvailable_keeps {fuel : Nat} (h : parseAvailable fuel s = some s')
    : s'.tail = s.tail ∧ s'.pushed = s.pushed ∧ s'.unpacker = s.unpacker ∧ s'.todo = s.todo := by
  induction fuel generalizing s with
  | zero => cases h
  | succ fuel ih =>
    rw [parseAvailable] at h
    split at h
    . cases h
    . next s₁ hstep =>
      have hkeeps := stepParser_keeps hstep
      split at h
      . cases h
        exact hkeeps
      . have hrest := ih h
        rw [hrest.1, hrest.2.1, hrest.2.2.1, hrest.2.2.2]
        exact hkeeps

theorem Flow.drains (h : s.Flow k H T ms messages) (hk : 9 ≤ k) (hk' : k < 64) (hpc : s.parser = .acquireHead)
    : ∃ s', Continues s s' ∧ s'.Flow k T T [] messages ∧ s'.parser = .acquireHead := by
  induction ms generalizing s H with
  | nil =>
    have hsame : H = T := h.empty_iff.2 rfl
    rw [hsame] at h
    exact ⟨s, Continues.refl s, h, hpc⟩
  | cons m rest ih =>
    by_cases hfits : H % 2 ^ k + kHeadBytes ≤ 2 ^ k
    . obtain ⟨s₁, hcontinues, hflow, hpc₁⟩ := h.continues_message hk hk' hpc rfl hfits
      obtain ⟨s', hcontinues', hflow'⟩ := ih hflow hpc₁
      exact ⟨s', hcontinues.trans hcontinues', hflow'⟩
    . obtain ⟨s₁, hcontinues, hflow, hpc₁⟩ := h.continues_skip hk hk' hpc (List.cons_ne_nil m rest)
        (Nat.lt_of_not_le hfits)
      have hcap : 2 ^ 9 ≤ 2 ^ k := Nat.pow_le_pow_right (by decide) hk
      have hfits₁ : Wrap.nextLap (2 ^ k) H % 2 ^ k + kHeadBytes ≤ 2 ^ k := by
        rw [Wrap.nextLap_mod_self]
        unfold kHeadBytes
        omega
      obtain ⟨s₂, hcontinues₂, hflow₂, hpc₂⟩ := hflow.continues_message hk hk' hpc₁ rfl hfits₁
      obtain ⟨s', hcontinues', hflow'⟩ := ih hflow₂ hpc₂
      exact ⟨s', (hcontinues.trans hcontinues₂).trans hcontinues', hflow'⟩

theorem Flow.nil_of_breaks (h : s.Flow k H T ms messages) (hk' : k < 64) (halone : s.Alone) (hbreaks : s.breaks = true)
    : ms = [] := by
  -- A call that leaves its loop has taken all messages, unless one was pushed since it read the positions.
  have hparser := h.parser
  have hused := h.used hk'
  unfold breaks at hbreaks
  unfold Alone at halone
  split at hbreaks
  . next n hpc =>
    have htest := of_decide_eq_true hbreaks
    rw [hused] at htest
    cases ms with
    | nil => rfl
    | cons m rest =>
      have hlt := h.lt rfl
      have hplace := le_place (SPSCByteRing.capacity_pos (k := k)) (p := H)
      have hlength := m.length_frame
      unfold kHeadBytes at htest
      omega
  . next n used hpc =>
    have htest := of_decide_eq_true hbreaks
    rw [hpc] at hparser
    obtain ⟨m, rest, hms, hhead, -, hlen⟩ := hparser
    rw [(h.read_head hk' hms hhead.fits).2] at htest
    rw [m.length_frame] at hlen
    exact absurd htest.2 (Nat.not_lt.2 hlen)
  . next hpc =>
    have htest := of_decide_eq_true hbreaks
    rw [hpc] at hparser halone
    have hfar : 2 ^ k < H % 2 ^ k + kHeadBytes := by
      have hacquire := halone.1
      have hmod := Nat.mod_lt H (SPSCByteRing.capacity_pos (k := k))
      have hused' := halone.2
      rw [h.acquire hk'] at hacquire
      rw [hused] at hused'
      omega
    exact absurd htest (Nat.not_lt.2 (h.nextLap_le_tail hk' hparser hfar))
  . next seq bodyLen n hpc =>
    have htest := of_decide_eq_true hbreaks
    rw [hpc] at hparser
    obtain ⟨m, rest, hms, hhead, hn, hcross⟩ := hparser
    have hlt := h.lt hms
    have hplace := le_place (SPSCByteRing.capacity_pos (k := k)) (p := H)
    have hlength := m.length_frame
    have hbodyLen := hhead.bodyLen
    rw [hused] at htest
    unfold kHeadBytes at htest
    omega
  . cases hbreaks

theorem Flow.returns_drained (h : s.Flow k H T ms messages) (hk : 9 ≤ k) (hk' : k < 64)
    (hpc : s.parser = .acquireHead)
    : ∃ fuel s', parseAvailable fuel s = some s' ∧ s'.Flow k T T [] messages ∧ s'.parser = .acquireHead := by
  obtain ⟨s', hcontinues, hflow, hpc'⟩ := h.drains hk hk' hpc
  obtain ⟨fuel, hreturns⟩ := hcontinues.returns (hflow.returns hk' hpc')
  exact ⟨fuel, s', hreturns, hflow, hpc'⟩

theorem Flow.drained (h : s.Flow k T T [] messages) (hk : 9 ≤ k) (hk' : k < 64) (hpc : s.parser = .acquireHead)
    : s.Drained := by
  have hfed := h.fed
  have hempty : s.head = s.tail := by
    rw [h.head, h.tail]
  refine ⟨hempty, ?_, ?_⟩
  . rw [hpc] at hfed
    rw [← hfed]
    exact (List.append_nil _).symm
  . intro m
    have hlength := m.length_frame
    have hsome := SPSCByteRing.plan_of_empty hk' T m.frame (by omega) (length_frame_le hk m)
    rw [h.capacity, h.head, h.tail]
    cases hsome with
    | intro r hr =>
      rw [hr.1]
      rfl

/--
Wherever a run that was careful so far has led, the next call of `parse_available` that runs alone returns, has
taken everything, and leaves room for every message.
-/
theorem drained_of_careful (hk : 9 ≤ k) (hk' : k < 64) (buf : Nat → UInt8) (messages : List Message)
    {as : List Party} (has : Run.Along step Careful (start (2 ^ k) buf messages) as)
    (hrun : Run.exec step (start (2 ^ k) buf messages) as = some s) (hpc : s.parser = .acquireHead)
    : ∃ fuel s', parseAvailable fuel s = some s' ∧ s'.tail = s.tail ∧ s'.pushed = s.pushed ∧ s'.Drained := by
  obtain ⟨H, T, ms, hflow⟩ := flow_of_careful hk hk' buf messages has hrun
  obtain ⟨fuel, s', hreturns, hflow', hpc'⟩ := hflow.returns_drained hk hk' hpc
  have hkeeps := parseAvailable_keeps hreturns
  exact ⟨fuel, s', hreturns, hkeeps.1, hkeeps.2.1, hflow'.drained hk hk' hpc'⟩

theorem drained_inTurn
    : ∃ s, Run.exec step (start (2 ^ 9) (fun _ => 0) fillers) (inTurn ++ inTurn) = some s ∧
        ∃ fuel s', parseAvailable fuel s = some s' ∧ s'.tail = s.tail ∧ s'.pushed = s.pushed ∧ s'.Drained := by
  have hwaits : (Run.exec step (start (2 ^ 9) (fun _ => 0) fillers) (inTurn ++ inTurn)).map
      (fun s => s.parser) = some .acquireHead := by
    decide +kernel
  rw [Option.map_eq_some_iff] at hwaits
  obtain ⟨s, hrun, hpc⟩ := hwaits
  refine ⟨s, hrun, ?_⟩
  apply drained_of_careful (by decide) (by decide) _ _ _ hrun hpc
  decide +kernel

/--
The first three messages end 20 bytes before the physical end, the last one crosses it.
-/
def crossers : List Message := fillers.take 3 ++ [filler 6 14 (by decide) (by decide)]

/--
The parser finds the ring empty, then the fourth message is pushed, and the parser takes its first 20 bytes for a
hole.
-/
def mistaken : List Party :=
  inTurn ++ inTurn ++ inTurn ++ [.parser] ++ List.replicate 5 .unpacker ++ List.replicate 3 .parser

theorem not_drained_mistaken
    : ∃ s, Run.exec step (start (2 ^ 9) (fun _ => 0) crossers) mistaken = some s ∧ s.parser = .acquireHead ∧
        (s.head, s.tail) = (512, 517) ∧
        ∀ fuel s', parseAvailable fuel s = some s' → (s'.head, s'.tail) = (512, 517) := by
  have hends : (Run.exec step (start (2 ^ 9) (fun _ => 0) crossers) mistaken).map
      (fun s => (s.parser, (s.head, s.tail), (parseAvailable 2 s).map (fun s' => (s'.head, s'.tail)))) =
        some (.acquireHead, (512, 517), some (512, 517)) := by
    decide +kernel
  rw [Option.map_eq_some_iff] at hends
  obtain ⟨s, hrun, hvalues⟩ := hends
  rw [Prod.mk.injEq, Prod.mk.injEq, Option.map_eq_some_iff] at hvalues
  obtain ⟨hpc, hends, r, hr, hreturned⟩ := hvalues
  refine ⟨s, hrun, hpc, hends, ?_⟩
  intro fuel s' h
  rw [parseAvailable_unique h hr]
  exact hreturned

end BytePipeline

end NebulaXTrader
