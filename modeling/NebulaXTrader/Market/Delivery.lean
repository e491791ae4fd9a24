import NebulaXTrader.Market.Lemmas.ByteRingParser

/-!
This module contains the theorem that the parser passes on exactly the messages pushed, as long as it does
not take the end of a lap for a hole because the producer has published more between two loads of `tail`.
-/

namespace NebulaXTrader

namespace BytePipeline

open SPSCByteRing (pos nextLap plan acquire)

variable {k H T : Nat} {ms messages : List Message} {s s' : BytePipeline}

/--
What is copied and what is still to be copied are together the frame of the message.
-/
def UnpackerPc.Knows (pc : UnpackerPc) (k : Nat) (buf : Nat → UInt8) (H T : Nat) : Prop :=
  match pc with
  | .loadHead => True
  | .copy copies tail m =>
    tail = (place (2 ^ k) T + m.frame.length) % 2 ^ 64 ∧
      place (2 ^ k) T + m.frame.length ≤ H + 2 ^ k ∧
      ∃ n, Cells.Placed (2 ^ k) (place (2 ^ k) T + n) copies ∧
        Cells.stream buf (2 ^ k) (place (2 ^ k) T) n ++ Cells.content copies = m.frame

/--
The parser has read the head of the message `m`, which is in one piece.
-/
structure HeadOf (k H : Nat) (m : Message) (seq bodyLen : Nat) : Prop where
  seq : seq = m.seq
  bodyLen : bodyLen = m.body.length
  fits : H % 2 ^ k + kHeadBytes ≤ 2 ^ k

def ParserPc.Knows (pc : ParserPc) (k H : Nat) (ms : List Message) : Prop :=
  match pc with
  | .acquireHead => True
  | .loadUsed n => n = 0 ∨ ms ≠ [] ∧ n = min kHeadBytes (2 ^ k - H % 2 ^ k)
  | .readHead n used => ∃ m rest, ms = m :: rest ∧ HeadOf k H m m.seq m.body.length ∧
      n = kHeadBytes ∧ m.frame.length ≤ used
  | .testHole => ms ≠ []
  | .skip bytes => ms ≠ [] ∧ 2 ^ k < H % 2 ^ k + kHeadBytes ∧ bytes = 2 ^ k - H % 2 ^ k
  | .discard _ => False
  | .acquireMessage seq bodyLen => ∃ m rest, ms = m :: rest ∧ HeadOf k H m seq bodyLen
  | .feed seq bodyLen => ∃ m rest, ms = m :: rest ∧ HeadOf k H m seq bodyLen ∧
      H % 2 ^ k + m.frame.length ≤ 2 ^ k
  | .verify seq bodyLen n => ∃ m rest, ms = m :: rest ∧ HeadOf k H m seq bodyLen ∧
      n = 2 ^ k - H % 2 ^ k ∧ 2 ^ k < H % 2 ^ k + m.frame.length
  | .copyFirst seq bodyLen n => ∃ m rest, ms = m :: rest ∧ HeadOf k H m seq bodyLen ∧
      n = 2 ^ k - H % 2 ^ k ∧ 2 ^ k < H % 2 ^ k + m.frame.length
  | .copySecond seq bodyLen tmp => ∃ m rest, ms = m :: rest ∧ HeadOf k H m seq bodyLen ∧
      tmp = m.frame.take (2 ^ k - H % 2 ^ k) ∧ 2 ^ k < H % 2 ^ k + m.frame.length
  | .feedTmp seq bodyLen tmp => ∃ m rest, ms = m :: rest ∧ HeadOf k H m seq bodyLen ∧ tmp = m.frame
  | .release msgLen => ∃ m rest, ms = m :: rest ∧ msgLen = m.frame.length ∧
      H % 2 ^ k + kHeadBytes ≤ 2 ^ k

def ParserPc.unfed (pc : ParserPc) (ms : List Message) : List Message :=
  match pc with
  | .release _ => ms.tail
  | _ => ms

/--
The ring holds the messages of `ms` between the positions `H` and `T`.
-/
structure Flow (k H T : Nat) (ms messages : List Message) (s : BytePipeline) : Prop where
  capacity : s.capacity = 2 ^ k
  head : s.head = H % 2 ^ 64
  tail : s.tail = T % 2 ^ 64
  layout : ends (2 ^ k) H ms = T
  room : T ≤ H + 2 ^ k
  stored : Stored (2 ^ k) s.buf H ms
  unpacker : s.unpacker.Knows k s.buf H T
  parser : s.parser.Knows k H ms
  pushed : s.pushed ++ s.unpacker.inFlight ++ s.todo = messages
  fed : s.fed ++ (s.parser.unfed ms).map (fun m => (m.seq, m.body)) =
    s.pushed.map (fun m => (m.seq, m.body))
  holes : s.skips ++ gaps (2 ^ k) H ms = s.holes

theorem Flow.start (buf : Nat → UInt8) : (start (2 ^ k) buf messages).Flow k 0 0 [] messages := by
  constructor
  . rfl
  . rfl
  . rfl
  . rfl
  . exact Nat.zero_le _
  . trivial
  . trivial
  . trivial
  . rfl
  . rfl
  . rfl

theorem Flow.le (h : s.Flow k H T ms messages) : H ≤ T := by
  rw [← h.layout]
  exact le_ends (SPSCByteRing.capacity_pos (k := k))

theorem Flow.lt (h : s.Flow k H T ms messages) {m : Message} {rest : List Message} (hms : ms = m :: rest)
    : place (2 ^ k) H + m.frame.length ≤ T := by
  rw [← h.layout, hms]
  exact le_ends (SPSCByteRing.capacity_pos (k := k))

theorem Flow.empty_iff (h : s.Flow k H T ms messages) : H = T ↔ ms = [] := by
  constructor
  . intro heq
    cases hms : ms with
    | nil => rfl
    | cons m rest =>
      have hlt := h.lt hms
      have hplace := le_place (SPSCByteRing.capacity_pos (k := k)) (p := H)
      have hlength := m.length_frame
      omega
  . intro hnil
    rw [← h.layout, hnil]
    rfl

theorem Flow.used (h : s.Flow k H T ms messages) (hk : k < 64) : sub64 s.tail s.head = T - H := by
  have hcap := SPSCByteRing.capacity_le hk
  have hroom := h.room
  rw [h.tail, h.head]
  apply SPSCByteRing.sub64_eq h.le
  omega

theorem Flow.acquire (h : s.Flow k H T ms messages) (hk : k < 64) (request : Nat)
    : acquire s.capacity s.head s.tail request = min (min request (T - H)) (2 ^ k - H % 2 ^ k) := by
  rw [h.capacity, h.head, h.tail]
  have hcap := SPSCByteRing.capacity_le hk
  have hroom := h.room
  apply SPSCByteRing.acquire_eq hk request h.le
  omega

theorem Flow.pos (h : s.Flow k H T ms messages) (hk : k < 64) : pos s.capacity s.head = H % 2 ^ k := by
  rw [h.capacity, h.head]
  exact SPSCByteRing.pos_eq hk H

theorem Flow.exact (h : s.Flow k H T ms messages) (hk : k < 64) : s.Exact messages := by
  refine ⟨h.pushed, ?_, ?_, ?_⟩
  . rw [← h.fed]
    apply List.prefix_append
  . intro heq
    have hcap := SPSCByteRing.capacity_le hk
    have hroom := h.room
    have hle := h.le
    have hpos : T = H := by
      apply Wrap.eq_of_mod_eq (W := 2 ^ 64) hle
      . omega
      . rw [← h.head, ← h.tail]
        exact heq.symm
    have hnil := h.empty_iff.1 hpos.symm
    have hfed := h.fed
    have hunfed : s.parser.unfed ms = [] := by
      rw [hnil]
      unfold ParserPc.unfed
      split
      . rfl
      . rfl
    rw [hunfed] at hfed
    simpa using hfed
  . rw [← h.holes]
    apply List.prefix_append

theorem ParserPc.Knows.append {pc : ParserPc} (h : pc.Knows k H ms) (m : Message)
    : pc.Knows k H (ms ++ [m]) ∧ pc.unfed (ms ++ [m]) = pc.unfed ms ++ [m] := by
  have hne : ms ≠ [] → ms ++ [m] ≠ [] := by
    intro _ hnil
    exact absurd (List.append_eq_nil_iff.1 hnil).2 (fun h => nomatch h)
  have hcons : ∀ {P : Message → Prop}, (∃ m' rest, ms = m' :: rest ∧ P m') →
      ∃ m' rest, ms ++ [m] = m' :: rest ∧ P m' := by
    intro P hP
    cases hP with
    | intro m' hP =>
      cases hP with
      | intro rest hP => exact ⟨m', rest ++ [m], by rw [hP.1, List.cons_append], hP.2⟩
  cases pc with
  | acquireHead => exact ⟨trivial, rfl⟩
  | loadUsed n => exact ⟨h.imp id (fun hn => ⟨hne hn.1, hn.2⟩), rfl⟩
  | readHead n used => exact ⟨hcons h, rfl⟩
  | testHole => exact ⟨hne h, rfl⟩
  | skip bytes => exact ⟨⟨hne h.1, h.2⟩, rfl⟩
  | discard n => exact ⟨h, rfl⟩
  | acquireMessage seq bodyLen => exact ⟨hcons h, rfl⟩
  | feed seq bodyLen => exact ⟨hcons h, rfl⟩
  | verify seq bodyLen n => exact ⟨hcons h, rfl⟩
  | copyFirst seq bodyLen n => exact ⟨hcons h, rfl⟩
  | copySecond seq bodyLen tmp => exact ⟨hcons h, rfl⟩
  | feedTmp seq bodyLen tmp => exact ⟨hcons h, rfl⟩
  | release msgLen =>
    refine ⟨hcons h, List.tail_append_of_ne_nil ?_⟩
    cases h with
    | intro m' h =>
      cases h with
      | intro rest h =>
        rw [h.1]
        exact fun h => nomatch h

theorem UnpackerPc.Knows.advance {pc : UnpackerPc} {buf : Nat → UInt8} {H' : Nat} (h : pc.Knows k buf H T)
    (hle : H ≤ H') : pc.Knows k buf H' T := by
  cases pc with
  | loadHead => trivial
  | copy copies tail m =>
    have hroom := h.2.1
    exact ⟨h.1, by omega, h.2.2⟩

theorem Flow.stepUnpacker (h : s.Flow k H T ms messages) (hk : 9 ≤ k) (hk' : k < 64) (hroomy : s.Roomy)
    (hstep : s.stepUnpacker = some s') : ∃ T' ms', s'.Flow k H T' ms' messages := by
  have hpos := SPSCByteRing.capacity_pos (k := k)
  have hpushed := h.pushed
  have hunpacker := h.unpacker
  unfold BytePipeline.stepUnpacker at hstep
  split at hstep
  . next hpc =>
    split at hstep
    . cases hstep
    . next m todo htodo =>
      split at hstep
      . cases hstep
        exact ⟨T, ms, h⟩
      . next p hplan =>
        have htest := hroomy hpc m (by rw [htodo]; rfl)
        rw [h.capacity, h.tail, SPSCByteRing.pos_eq hk', SPSCByteRing.nextLap_eq hk', h.head] at htest
        rw [h.capacity, h.head, h.tail] at hplan
        have hp := plan_some hk hk' h.le h.room htest hplan
        rw [hpc, htodo] at hpushed
        cases hstep
        refine ⟨T, ms, h.capacity, h.head, h.tail, h.layout, h.room, h.stored, ?_, h.parser, ?_, h.fed, h.holes⟩
        . exact ⟨hp.1, hp.2.1, 0, hp.2.2.1, hp.2.2.2⟩
        . rw [← hpushed]
          simp [UnpackerPc.inFlight]
  . next c copies tail m hpc =>
    rw [hpc] at hpushed hunpacker
    cases hunpacker.2.2 with
    | intro n hn =>
      have hplaced := hn.1
      have hlength := congrArg List.length hn.2
      rw [List.length_append, Cells.length_stream, Cells.content_cons, List.length_append] at hlength
      have hroom := hunpacker.2.1
      have hplace := le_place hpos (p := T)
      have hsmall := length_frame_le hk m
      cases hstep
      refine ⟨T, ms, h.capacity, h.head, h.tail, h.layout, h.room, ?_, ?_, h.parser, hpushed, h.fed, h.holes⟩
      . apply h.stored.congr hpos
        intro q n' hq hn'
        rw [h.layout] at hn'
        apply hplaced.head_before
        . omega
        . omega
      . refine ⟨hunpacker.1, hroom, n + c.2.length, ?_, ?_⟩
        . rw [← Nat.add_assoc]
          exact hplaced.2
        . dsimp only
          rw [Cells.stream_add, hplaced.head_self, hplaced.head_before _ (Nat.le_refl _) (by omega)]
          rw [List.append_assoc, ← Cells.content_cons]
          exact hn.2
  . next tail m hpc =>
    rw [hpc] at hpushed hunpacker
    cases hunpacker.2.2 with
    | intro n hn =>
      have hstored := hn.2
      have hnil : Cells.content ([] : List (Nat × List UInt8)) = [] := rfl
      rw [hnil, List.append_nil] at hstored
      have hlength := congrArg List.length hstored
      rw [Cells.length_stream] at hlength
      rw [hlength] at hstored
      have hparser := h.parser.append m
      cases hstep
      refine ⟨place (2 ^ k) T + m.frame.length, ms ++ [m], h.capacity, h.head, hunpacker.1, ?_, hunpacker.2.1,
        ?_, trivial, hparser.1, ?_, ?_, ?_⟩
      . rw [ends_concat, h.layout]
      . apply h.stored.concat
        rw [h.layout]
        exact hstored
      . rw [← hpushed]
        simp [UnpackerPc.inFlight]
      . dsimp only
        rw [hparser.2, List.map_append, ← List.append_assoc, h.fed, List.map_append]
      . dsimp only
        rw [gaps_concat, h.layout, ← List.append_assoc, h.holes, h.tail, hunpacker.1, SPSCByteRing.add64_eq]
        by_cases hfit : T % 2 ^ k + kHeadBytes ≤ 2 ^ k
        . rw [if_pos hfit, place_of_fits hfit, if_pos rfl, List.append_nil]
        . have hlap := Wrap.nextLap_eq T hpos
          have hmod := Nat.mod_lt T hpos
          have hfar : 2 ^ k < T % 2 ^ k + 10 := Nat.lt_of_not_le hfit
          rw [if_neg hfit, place_of_not_fits hfit, if_neg (by omega)]

theorem Flow.setParser (h : s.Flow k H T ms messages) {pc : ParserPc} (hpc : pc.Knows k H ms)
    (hunfed : pc.unfed ms = s.parser.unfed ms) : ({ s with parser := pc }).Flow k H T ms messages := by
  refine ⟨h.capacity, h.head, h.tail, h.layout, h.room, h.stored, h.unpacker, hpc, h.pushed, ?_, h.holes⟩
  dsimp only
  rw [hunfed]
  exact h.fed

theorem Flow.message (h : s.Flow k H T ms messages) {m : Message} {rest : List Message} (hms : ms = m :: rest)
    (hfits : H % 2 ^ k + kHeadBytes ≤ 2 ^ k)
    : Cells.stream s.buf (2 ^ k) H m.frame.length = m.frame ∧ H + m.frame.length ≤ T := by
  have hstored := h.stored
  have hlt := h.lt hms
  rw [hms] at hstored
  unfold Stored at hstored
  rw [place_of_fits hfits] at hstored hlt
  exact ⟨hstored.1, hlt⟩

theorem Flow.skip (h : s.Flow k H T ms messages) (hk : 9 ≤ k) (hunfed : s.parser.unfed ms = ms)
    (hne : ms ≠ []) (hfar : 2 ^ k < H % 2 ^ k + kHeadBytes)
    : ({ s with
          head := add64 s.head (2 ^ k - H % 2 ^ k)
          skips := s.skips ++ [s.head]
          parser := .acquireHead }).Flow k (Wrap.nextLap (2 ^ k) H) T ms messages := by
  have hlap := Wrap.nextLap_eq H (SPSCByteRing.capacity_pos (k := k))
  have hroom := h.room
  have hlayout := h.layout
  have hstored := h.stored
  have hfed := h.fed
  have hholes := h.holes
  have hcap : 2 ^ 9 ≤ 2 ^ k := Nat.pow_le_pow_right (by decide) hk
  have hsame : place (2 ^ k) (Wrap.nextLap (2 ^ k) H) = place (2 ^ k) H := by
    rw [place_of_not_fits (Nat.not_le.2 hfar)]
    apply place_nextLap
    unfold kHeadBytes
    omega
  rw [hunfed] at hfed
  cases ms with
  | nil => exact absurd rfl hne
  | cons m rest =>
    refine ⟨h.capacity, ?_, h.tail, ?_, by omega, ?_, h.unpacker.advance (by omega), trivial, h.pushed, hfed, ?_⟩
    . dsimp only
      rw [h.head, SPSCByteRing.add64_eq, hlap]
    . unfold ends at hlayout ⊢
      rw [hsame]
      exact hlayout
    . unfold Stored at hstored ⊢
      rw [hsame]
      exact hstored
    . unfold gaps at hholes ⊢
      rw [if_neg (Nat.not_le.2 hfar)] at hholes
      rw [hsame, Wrap.nextLap_mod_self, if_pos (by unfold kHeadBytes; omega), h.head, List.append_assoc]
      exact hholes

theorem Flow.pass (h : s.Flow k H T ms messages) (hunfed : s.parser.unfed ms = ms) {m : Message}
    {rest : List Message} (hms : ms = m :: rest) {seq bodyLen : Nat} (hhead : HeadOf k H m seq bodyLen)
    : ({ s with
          fed := s.fed ++ [(seq, m.body)]
          parser := .release (kHeadBytes + bodyLen) }).Flow k H T ms messages := by
  have hfed := h.fed
  have hlength := m.length_frame
  refine ⟨h.capacity, h.head, h.tail, h.layout, h.room, h.stored, h.unpacker, ?_, h.pushed, ?_, h.holes⟩
  . refine ⟨m, rest, hms, ?_, hhead.fits⟩
    rw [hlength, hhead.bodyLen]
    rfl
  . rw [hunfed, hms] at hfed
    rw [← hfed, hms, hhead.seq]
    simp [ParserPc.unfed]

theorem Flow.release (h : s.Flow k H T ms messages) {m : Message} {rest : List Message} (hms : ms = m :: rest)
    (hunfed : s.parser.unfed ms = rest) (hfits : H % 2 ^ k + kHeadBytes ≤ 2 ^ k)
    : ({ s with head := add64 s.head m.frame.length, parser := .acquireHead }).Flow k
        (H + m.frame.length) T rest messages := by
  have hroom := h.room
  have hlayout := h.layout
  have hstored := h.stored
  have hfed := h.fed
  have hholes := h.holes
  rw [hunfed] at hfed
  rw [hms] at hlayout hstored hholes
  unfold ends at hlayout
  unfold Stored at hstored
  unfold gaps at hholes
  rw [place_of_fits hfits] at hlayout hstored hholes
  rw [if_pos hfits] at hholes
  refine ⟨h.capacity, ?_, h.tail, hlayout, by omega, hstored.2, h.unpacker.advance (by omega), trivial,
    h.pushed, hfed, hholes⟩
  dsimp only
  rw [h.head, SPSCByteRing.add64_eq]

theorem Flow.read_front (h : s.Flow k H T ms messages) (hk : k < 64) {m : Message} {rest : List Message}
    (hms : ms = m :: rest) (hhead : H % 2 ^ k + kHeadBytes ≤ 2 ^ k) {n : Nat} (hn : n ≤ m.frame.length)
    (hfits : H % 2 ^ k + n ≤ 2 ^ k) : Cells.read s.buf (SPSCByteRing.pos s.capacity s.head) n = m.frame.take n := by
  have hmessage := h.message hms hhead
  rw [h.pos hk, Cells.read_eq_stream _ hfits]
  conv => rhs; rw [← hmessage.1]
  rw [Cells.take_stream hn]

theorem Flow.read_head (h : s.Flow k H T ms messages) (hk : k < 64) {m : Message} {rest : List Message}
    (hms : ms = m :: rest) (hhead : H % 2 ^ k + kHeadBytes ≤ 2 ^ k)
    : let p := Cells.read s.buf (SPSCByteRing.pos s.capacity s.head) kHeadBytes
      Positional.word (p.take 8) = m.seq ∧ Positional.word (p.drop 8) = m.body.length := by
  have hlength := m.length_frame
  have hread : Cells.read s.buf (SPSCByteRing.pos s.capacity s.head) kHeadBytes = m.frame.take 10 :=
    h.read_front hk hms hhead (by unfold kHeadBytes; omega) hhead
  have htake : m.frame.take (min 8 10) = Positional.bytes 8 m.seq := m.take_frame
  dsimp only
  rw [hread, m.drop_take_frame, List.take_take, htake]
  exact ⟨m.word_seq, m.word_bodyLen⟩

theorem Flow.read_body (h : s.Flow k H T ms messages) (hk : k < 64) {m : Message} {rest : List Message}
    (hms : ms = m :: rest) (hfits : H % 2 ^ k + m.frame.length ≤ 2 ^ k)
    : Cells.read s.buf (SPSCByteRing.pos s.capacity s.head + kHeadBytes) m.body.length = m.body := by
  have hlength := m.length_frame
  have hbody := m.body_pos
  have hmessage := h.message hms (by unfold kHeadBytes; omega)
  have hat : H % 2 ^ k + kHeadBytes = (H + kHeadBytes) % 2 ^ k := by
    rw [Cells.mod_add_of_fits]
    unfold kHeadBytes
    omega
  rw [h.pos hk, hat, Cells.read_eq_stream _ (by rw [← hat]; unfold kHeadBytes; omega)]
  conv => rhs; rw [← m.drop_frame, ← hmessage.1]
  rw [Cells.drop_stream (by omega), hlength, Nat.add_sub_cancel_left]
  rfl

theorem Flow.read_wrapped (h : s.Flow k H T ms messages) (hk : 9 ≤ k) {m : Message} {rest : List Message}
    (hms : ms = m :: rest) (hhead : H % 2 ^ k + kHeadBytes ≤ 2 ^ k) (hcross : 2 ^ k < H % 2 ^ k + m.frame.length)
    : Cells.read s.buf 0 (m.frame.length - (2 ^ k - H % 2 ^ k)) = m.frame.drop (2 ^ k - H % 2 ^ k) := by
  have hpos := SPSCByteRing.capacity_pos (k := k)
  have hmod := Nat.mod_lt H hpos
  have hsmall := length_frame_le hk m
  have hmessage := h.message hms hhead
  have hlap := Wrap.nextLap_eq H hpos
  have hzero := Wrap.nextLap_mod_self (2 ^ k) H
  conv => lhs; rw [← hzero]
  rw [Cells.read_eq_stream _ (by omega), hlap]
  conv => rhs; rw [← hmessage.1]
  rw [Cells.drop_stream (by omega)]

theorem Flow.knows_loadUsed (h : s.Flow k H T ms messages) (hk : k < 64)
    : (ParserPc.loadUsed (SPSCByteRing.acquire s.capacity s.head s.tail kHeadBytes)).Knows k H ms := by
  have hpos := SPSCByteRing.capacity_pos (k := k)
  have hmod := Nat.mod_lt H hpos
  rw [h.acquire hk]
  cases hms : ms with
  | nil =>
    apply Or.inl
    have heq := h.empty_iff.2 hms
    omega
  | cons m rest =>
    apply Or.inr
    have hlt := h.lt hms
    have hplace := le_place hpos (p := H)
    have hlength := m.length_frame
    refine ⟨(fun h => nomatch h), ?_⟩
    unfold kHeadBytes
    omega

theorem Flow.knows_readHead (h : s.Flow k H T ms messages) {n : Nat}
    (hknows : (ParserPc.loadUsed n).Knows k H ms) (hn : n = kHeadBytes)
    : (ParserPc.readHead n (T - H)).Knows k H ms := by
  have hfull := hknows.resolve_left (by rw [hn]; decide)
  have hfits : H % 2 ^ k + kHeadBytes ≤ 2 ^ k := by omega
  cases hms : ms with
  | nil => exact absurd hms hfull.1
  | cons m rest =>
    have hlt := (h.message hms hfits).2
    exact ⟨m, rest, rfl, ⟨rfl, rfl, hfits⟩, hn, by omega⟩

theorem Flow.knows_feedTmp (h : s.Flow k H T ms messages) (hk : 9 ≤ k) {seq bodyLen : Nat} {tmp : List UInt8}
    (hknows : (ParserPc.copySecond seq bodyLen tmp).Knows k H ms)
    : (ParserPc.feedTmp seq bodyLen
        (tmp ++ Cells.read s.buf 0 (kHeadBytes + bodyLen - tmp.length))).Knows k H ms := by
  have hmod := Nat.mod_lt H (SPSCByteRing.capacity_pos (k := k))
  cases hknows with
  | intro m hknows =>
    cases hknows with
    | intro rest hknows =>
      have hhead := hknows.2.1
      have hlength := m.length_frame
      have hcross := hknows.2.2.2
      have htmp : tmp.length = 2 ^ k - H % 2 ^ k := by
        rw [hknows.2.2.1, List.length_take]
        omega
      have hcount : kHeadBytes + bodyLen - tmp.length = m.frame.length - (2 ^ k - H % 2 ^ k) := by
        rw [htmp, hhead.bodyLen, hlength]
        rfl
      refine ⟨m, rest, hknows.1, hhead, ?_⟩
      rw [hcount, h.read_wrapped hk hknows.1 hhead.fits hcross, hknows.2.2.1, List.take_append_drop]

/-!
What the parser knows at each of its accesses.
-/

theorem Flow.loadUsed (h : s.Flow k H T ms messages) (hk' : k < 64) {n : Nat} (hpc : s.parser = .loadUsed n)
    (hstep : s.stepParser = some s') : ∃ H' ms', s'.Flow k H' T ms' messages := by
  have hunfed : s.parser.unfed ms = ms := by rw [hpc]; rfl
  have hknows := h.parser
  unfold BytePipeline.stepParser at hstep
  rw [hpc] at hknows hstep
  dsimp only at hstep
  rw [h.used hk'] at hstep
  split at hstep
  . next hn =>
    cases hstep
    exact ⟨H, ms, h.setParser (h.knows_readHead hknows hn) hunfed.symm⟩
  . split at hstep
    . next hused =>
      cases hstep
      refine ⟨H, ms, h.setParser ?_ hunfed.symm⟩
      intro hnil
      have heq := h.empty_iff.2 hnil
      unfold kHeadBytes at hused
      omega
    . cases hstep
      exact ⟨H, ms, h.setParser trivial hunfed.symm⟩

theorem Flow.readHead (h : s.Flow k H T ms messages) (hk' : k < 64) {n used : Nat} (hpc : s.parser = .readHead n used)
    (hstep : s.stepParser = some s') : ∃ H' ms', s'.Flow k H' T ms' messages := by
  have hunfed : s.parser.unfed ms = ms := by rw [hpc]; rfl
  have hknows := h.parser
  unfold BytePipeline.stepParser at hstep
  rw [hpc] at hknows hstep
  obtain ⟨m, rest, hms, hhead, hused⟩ := hknows
  have hlength := m.length_frame
  have hbody := m.body_pos
  have hbody' := m.body_le
  have hread := h.read_head hk' hms hhead.fits
  dsimp only at hstep hread
  rw [hread.1, hread.2] at hstep
  rw [if_neg (by omega), if_neg (by unfold kHeadBytes; omega)] at hstep
  cases hstep
  exact ⟨H, ms, h.setParser ⟨m, rest, hms, hhead⟩ hunfed.symm⟩

theorem Flow.testHole (h : s.Flow k H T ms messages) (hk' : k < 64) (hhollow : s.Hollow) (hpc : s.parser = .testHole)
    (hstep : s.stepParser = some s') : ∃ H' ms', s'.Flow k H' T ms' messages := by
  have hunfed : s.parser.unfed ms = ms := by rw [hpc]; rfl
  have hpos := SPSCByteRing.capacity_pos (k := k)
  have hmod := Nat.mod_lt H hpos
  have hle := h.le
  have hknows := h.parser
  unfold BytePipeline.stepParser at hstep
  rw [hpc] at hknows hstep
  dsimp only at hstep
  split at hstep
  . cases hstep
    exact ⟨H, ms, h.setParser trivial hunfed.symm⟩
  . next hskip =>
    have hfar := hhollow hpc (by omega)
    rw [h.capacity, h.head, SPSCByteRing.pos_eq hk'] at hfar
    have hlap := Wrap.nextLap_eq H hpos
    have hcap := SPSCByteRing.capacity_le hk'
    cases hstep
    refine ⟨H, ms, h.setParser ⟨hknows, hfar, ?_⟩ hunfed.symm⟩
    rw [h.capacity, h.head, SPSCByteRing.nextLap_eq hk', SPSCByteRing.sub64_eq (by omega) (by omega)]
    omega

theorem Flow.acquireMessage (h : s.Flow k H T ms messages) (hk' : k < 64) {seq bodyLen : Nat}
    (hpc : s.parser = .acquireMessage seq bodyLen) (hstep : s.stepParser = some s')
    : ∃ H' ms', s'.Flow k H' T ms' messages := by
  have hunfed : s.parser.unfed ms = ms := by rw [hpc]; rfl
  have hknows := h.parser
  unfold BytePipeline.stepParser at hstep
  rw [hpc] at hknows hstep
  obtain ⟨m, rest, hms, hhead⟩ := hknows
  have hmessage := h.message hms hhead.fits
  have hlength := m.length_frame
  have hbodyLen := hhead.bodyLen
  dsimp only at hstep
  rw [h.acquire hk'] at hstep
  unfold kHeadBytes at hstep
  split at hstep
  . next hn =>
    cases hstep
    refine ⟨H, ms, h.setParser ⟨m, rest, hms, hhead, ?_⟩ hunfed.symm⟩
    omega
  . next hn =>
    cases hstep
    refine ⟨H, ms, h.setParser ⟨m, rest, hms, hhead, ?_, ?_⟩ hunfed.symm⟩
    . omega
    . omega

theorem Flow.feed (h : s.Flow k H T ms messages) (hk' : k < 64) {seq bodyLen : Nat} (hpc : s.parser = .feed seq bodyLen)
    (hstep : s.stepParser = some s') : ∃ H' ms', s'.Flow k H' T ms' messages := by
  have hunfed : s.parser.unfed ms = ms := by rw [hpc]; rfl
  have hknows := h.parser
  unfold BytePipeline.stepParser at hstep
  rw [hpc] at hknows hstep
  obtain ⟨m, rest, hms, hhead, hinside⟩ := hknows
  have hread : Cells.read s.buf (SPSCByteRing.pos s.capacity s.head + kHeadBytes) bodyLen = m.body := by
    rw [hhead.bodyLen]
    exact h.read_body hk' hms hinside
  cases hstep
  rw [hread]
  exact ⟨H, ms, h.pass hunfed hms hhead⟩

theorem Flow.copyFirst (h : s.Flow k H T ms messages) (hk' : k < 64) {seq bodyLen n : Nat}
    (hpc : s.parser = .copyFirst seq bodyLen n) (hstep : s.stepParser = some s')
    : ∃ H' ms', s'.Flow k H' T ms' messages := by
  have hunfed : s.parser.unfed ms = ms := by rw [hpc]; rfl
  have hmod := Nat.mod_lt H (SPSCByteRing.capacity_pos (k := k))
  have hknows := h.parser
  unfold BytePipeline.stepParser at hstep
  rw [hpc] at hknows hstep
  obtain ⟨m, rest, hms, hhead, hn, hcross⟩ := hknows
  cases hstep
  refine ⟨H, ms, h.setParser ⟨m, rest, hms, hhead, ?_, hcross⟩ hunfed.symm⟩
  rw [hn]
  apply h.read_front hk' hms hhead.fits
  . omega
  . omega

theorem Flow.feedTmp (h : s.Flow k H T ms messages) {seq bodyLen : Nat} {tmp : List UInt8}
    (hpc : s.parser = .feedTmp seq bodyLen tmp) (hstep : s.stepParser = some s')
    : ∃ H' ms', s'.Flow k H' T ms' messages := by
  have hunfed : s.parser.unfed ms = ms := by rw [hpc]; rfl
  have hknows := h.parser
  unfold BytePipeline.stepParser at hstep
  rw [hpc] at hknows hstep
  obtain ⟨m, rest, hms, hhead, htmp⟩ := hknows
  have hbody : (tmp.drop kHeadBytes).take bodyLen = m.body := by
    have hdrop : m.frame.drop kHeadBytes = m.body := m.drop_frame
    rw [htmp, hdrop, hhead.bodyLen, List.take_length]
  cases hstep
  rw [hbody]
  exact ⟨H, ms, h.pass hunfed hms hhead⟩

theorem Flow.stepParser (h : s.Flow k H T ms messages) (hk : 9 ≤ k) (hk' : k < 64) (hhollow : s.Hollow)
    (hstep : s.stepParser = some s') : ∃ H' ms', s'.Flow k H' T ms' messages := by
  have hknows := h.parser
  cases hpc : s.parser with
  | loadUsed n => exact h.loadUsed hk' hpc hstep
  | readHead n used => exact h.readHead hk' hpc hstep
  | testHole => exact h.testHole hk' hhollow hpc hstep
  | acquireMessage seq bodyLen => exact h.acquireMessage hk' hpc hstep
  | feed seq bodyLen => exact h.feed hk' hpc hstep
  | copyFirst seq bodyLen n => exact h.copyFirst hk' hpc hstep
  | feedTmp seq bodyLen tmp => exact h.feedTmp hpc hstep
  | acquireHead =>
    have hunfed : s.parser.unfed ms = ms := by rw [hpc]; rfl
    unfold BytePipeline.stepParser at hstep
    rw [hpc] at hstep
    cases hstep
    exact ⟨H, ms, h.setParser (h.knows_loadUsed hk') hunfed.symm⟩
  | skip bytes =>
    have hunfed : s.parser.unfed ms = ms := by rw [hpc]; rfl
    unfold BytePipeline.stepParser at hstep
    rw [hpc] at hknows hstep
    obtain ⟨hms, hfar, hbytes⟩ := hknows
    subst hbytes
    cases hstep
    exact ⟨Wrap.nextLap (2 ^ k) H, ms, h.skip hk hunfed hms hfar⟩
  | discard n =>
    rw [hpc] at hknows
    cases hknows
  | verify seq bodyLen n =>
    have hunfed : s.parser.unfed ms = ms := by rw [hpc]; rfl
    unfold BytePipeline.stepParser at hstep
    rw [hpc] at hknows hstep
    dsimp only at hstep
    split at hstep
    . cases hstep
      exact ⟨H, ms, h.setParser trivial hunfed.symm⟩
    . cases hstep
      exact ⟨H, ms, h.setParser hknows hunfed.symm⟩
  | copySecond seq bodyLen tmp =>
    have hunfed : s.parser.unfed ms = ms := by rw [hpc]; rfl
    unfold BytePipeline.stepParser at hstep
    rw [hpc] at hknows hstep
    cases hstep
    exact ⟨H, ms, h.setParser (h.knows_feedTmp hk hknows) hunfed.symm⟩
  | release msgLen =>
    unfold BytePipeline.stepParser at hstep
    rw [hpc] at hknows hstep
    obtain ⟨m, rest, hms, hmsgLen, hrest⟩ := hknows
    have hunfed : s.parser.unfed ms = rest := by rw [hpc, hms]; rfl
    subst hmsgLen
    cases hstep
    exact ⟨H + m.frame.length, rest, h.release hms hunfed hrest⟩

theorem flow_of_careful (hk : 9 ≤ k) (hk' : k < 64) (buf : Nat → UInt8) (messages : List Message) {as : List Party}
    (has : Run.Along step Careful (start (2 ^ k) buf messages) as)
    (hrun : Run.exec step (start (2 ^ k) buf messages) as = some s) : ∃ H T ms, s.Flow k H T ms messages := by
  apply Run.exec_inv _ ⟨0, 0, [], Flow.start buf⟩ has hrun
  intro s p s' h hcareful hstep
  cases h with
  | intro H h =>
    cases h with
    | intro T h =>
      cases h with
      | intro ms h =>
        cases p with
        | unpacker => exact ⟨H, h.stepUnpacker hk hk' hcareful hstep⟩
        | parser =>
          cases h.stepParser hk hk' hcareful hstep with
          | intro H' h' => exact ⟨H', T, h'⟩

/--
The parser passes on exactly the messages pushed, each with its own sequence number and body, if it takes
the end of a lap for a hole only where no head fits, and if the producer's test for room does not go wrong
where the positions start over at 0.
-/
theorem exact_of_careful (hk : 9 ≤ k) (hk' : k < 64) (buf : Nat → UInt8) (messages : List Message)
    {as : List Party} (has : Run.Along step Careful (start (2 ^ k) buf messages) as)
    (hrun : Run.exec step (start (2 ^ k) buf messages) as = some s) : s.Exact messages := by
  cases flow_of_careful hk hk' buf messages has hrun with
  | intro H h =>
    cases h with
    | intro T h =>
      cases h with
      | intro ms h => exact h.exact hk'

def filler (seq n : Nat) (hseq : seq < 2 ^ 64) (hn : n < 200) : Message where
  seq := seq
  body := List.replicate (n + 1) 65
  seq_lt := hseq
  body_pos := by simp
  body_le := by
    rw [List.length_replicate]
    exact hn

/--
The first three messages end 20 bytes before the end of a ring of 512 bytes, the fourth one 8 bytes before.
-/
def fillers : List Message :=
  [filler 1 199 (by decide) (by decide), filler 2 199 (by decide) (by decide),
    filler 3 61 (by decide) (by decide), filler 4 1 (by decide) (by decide), filler 5 1 (by decide) (by decide)]

def inTurn : List Party := List.replicate 3 .unpacker ++ List.replicate 6 .parser

theorem exact_inTurn
    : let as := inTurn ++ inTurn ++ inTurn ++ inTurn
      ∃ s, Run.exec step (start (2 ^ 9) (fun _ => 0) fillers) as = some s ∧ s.Exact fillers := by
  intro as
  have hsome : (Run.exec step (start (2 ^ 9) (fun _ => 0) fillers) as).isSome := by
    decide +kernel
  cases Option.isSome_iff_exists.1 hsome with
  | intro s hrun =>
    refine ⟨s, hrun, ?_⟩
    apply exact_of_careful (by decide) (by decide) _ _ _ hrun
    decide +kernel

/--
The parser finds the ring empty, then two messages are pushed, of which the second one is moved to the next
lap, and the parser takes the first one for a hole.
-/
def overlooked : List Party :=
  inTurn ++ inTurn ++ inTurn ++ [.parser] ++ List.replicate 6 .unpacker ++ List.replicate 9 .parser

theorem not_exactly_pushed
    : ¬ ∀ (k : Nat) (buf : Nat → UInt8) (messages : List Message), 9 ≤ k → k < 64 →
        ∀ as s, Run.exec step (start (2 ^ k) buf messages) as = some s → s.Exact messages := by
  intro h
  have hseqs : (Run.exec step (start (2 ^ 9) (fun _ => 0) fillers) overlooked).map
      (fun s => (s.fed.map Prod.fst, s.pushed.map Message.seq)) = some ([1, 2, 3, 5], [1, 2, 3, 4, 5]) := by
    decide +kernel
  rw [Option.map_eq_some_iff] at hseqs
  cases hseqs with
  | intro s hs =>
    have hprefix := (h 9 _ _ (by decide) (by decide) _ s hs.1).fed.map Prod.fst
    have hpair := hs.2
    rw [Prod.mk.injEq] at hpair
    have hpushed : (s.pushed.map (fun m => (m.seq, m.body))).map Prod.fst = s.pushed.map Message.seq := by
      rw [List.map_map]
      rfl
    rw [hpushed, hpair.1, hpair.2] at hprefix
    revert hprefix
    decide

end BytePipeline

end NebulaXTrader
