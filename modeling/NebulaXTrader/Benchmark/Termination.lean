import NebulaXTrader.Benchmark.FileWalk
import NebulaXTrader.Lib.Rank

/-!
This module contains the theorem that tells on which files the packing loop terminates: a message that the end of the
file cuts short keeps it from its end for ever.
-/

namespace NebulaXTrader

open Positional (word)

namespace PackingLoop

open FileWalk (deframer)
open MoldUdpUnpacker (be16)

variable {cfg : Config} {s s' : PackingLoop}

/--
What a round of the `for` does.
-/
inductive Filled (cfg : Config) (s : PackingLoop) : PackingLoop → Prop where
  | full (h : ¬ (s.i < s.msgsThisPacket ∧ s.pos + 2 ≤ cfg.file.length)) : Filled cfg s { s with pc := .pack }
  | skip (hi : s.i < s.msgsThisPacket) (hpos : s.pos + 2 ≤ cfg.file.length)
    (hnext : FileWalk.next (cfg.file.drop s.pos) = some (none, cfg.file.drop (s.pos + 1)))
    : Filled cfg s { s with pos := s.pos + 1, extraBytes := s.extraBytes + 1 }
  | cut (hi : s.i < s.msgsThisPacket) (hpos : s.pos + 2 ≤ cfg.file.length)
    (hnext : FileWalk.next (cfg.file.drop s.pos) = none) : Filled cfg s { s with pc := .pack }
  | filtered (b : ItchBody) (hi : s.i < s.msgsThisPacket) (hpos : s.pos + (2 + b.1.length) ≤ cfg.file.length)
    (hlisted : FileWalk.listed b = false)
    (hnext : FileWalk.next (cfg.file.drop s.pos) = some (some b, cfg.file.drop (s.pos + (2 + b.1.length))))
    : Filled cfg s { s with pos := s.pos + (2 + b.1.length) }
  | packed (b : ItchBody) (hi : s.i < s.msgsThisPacket) (hpos : s.pos + (2 + b.1.length) ≤ cfg.file.length)
    (hlisted : FileWalk.listed b = true)
    (hnext : FileWalk.next (cfg.file.drop s.pos) = some (some b, cfg.file.drop (s.pos + (2 + b.1.length))))
    : Filled cfg s { s with
        pkt := s.pkt ++ ReplayClient.message b
        pos := s.pos + (2 + b.1.length)
        pktCount := s.pktCount + 1
        globalMsgSeq := s.globalMsgSeq + 1
        i := s.i + 1 }

theorem filled (cfg : Config) (s : PackingLoop) : Filled cfg s (s.fill cfg) := by
  have hword : be16 cfg.file s.pos = word ((cfg.file.drop s.pos).take 2) := rfl
  unfold fill
  split
  case isFalse h => exact .full h
  case isTrue h =>
    obtain ⟨hi, hpos⟩ := h
    have hlength : (cfg.file.drop s.pos).length = cfg.file.length - s.pos := List.length_drop
    dsimp only
    rw [hword, UInt64.sub_add_cancel]
    cases FileWalk.cases (cfg.file.drop s.pos) with
    | short h2 hnext => omega
    | bad h2 hbody hnext =>
      rw [if_pos (by omega)]
      rw [List.drop_drop] at hnext
      exact .skip hi hpos hnext
    | cut h2 hbody hcut hnext =>
      rw [if_neg (by omega), if_pos (by omega)]
      exact .cut hi hpos hnext
    | message b rest hlen hbuf hnext =>
      have hle := b.2
      have hmessage := ReplayClient.length_message b
      have hsplit := congrArg List.length hbuf
      rw [List.length_append, hmessage] at hsplit
      have hfits : s.pos + (2 + b.1.length) ≤ cfg.file.length := by omega
      have hrest : rest = cfg.file.drop (s.pos + (2 + b.1.length)) := by
        rw [← List.drop_drop, hbuf]
        exact (List.drop_left' hmessage).symm
      have htype : cfg.file[s.pos + 2]? = b.1.head? := by
        rw [← List.getElem?_drop, hbuf, List.head?_eq_getElem?]
        unfold ReplayClient.message
        rw [List.append_assoc, List.getElem?_append_right (by simp), Positional.length_bytes]
        exact List.getElem?_append_left hle.1
      rw [hlen, if_neg (by omega), if_neg (by omega), htype]
      rw [hrest] at hnext
      split
      . next hR =>
        apply Filled.filtered b hi hfits _ hnext
        exact decide_eq_false (not_not.2 hR)
      . next hR =>
        have hslice : (cfg.file.drop s.pos).take (2 + b.1.length) = ReplayClient.message b := by
          rw [hbuf]
          exact List.take_left' hmessage
        rw [hslice]
        apply Filled.packed b hi hfits _ hnext
        exact decide_eq_true hR

/--
What a step of the loop does.
-/
inductive Moved (cfg : Config) (s : PackingLoop) : Label → PackingLoop → Prop where
  | testOuter (hpc : s.pc = .outer) : Moved cfg s .run (s.testOuter cfg)
  | choose (r : UInt64) (hpc : s.pc = .choose) : Moved cfg s (.rand r) (s.choose cfg r)
  | fill (hpc : s.pc = .fill) : Moved cfg s .run (s.fill cfg)
  | pack (hpc : s.pc = .pack) : Moved cfg s .run (s.pack cfg)
  | await (received : Nat) (hpc : s.pc = .await) : Moved cfg s (.load received) (s.await received)
  | sendto (r : Int) (hpc : s.pc = .send) : Moved cfg s (.sendto r) (s.sendto cfg r)

theorem moved {l : Label} (hstep : step cfg s l = some s') : Moved cfg s l s' := by
  unfold step at hstep
  cases hpc : s.pc
  all_goals
    rw [hpc] at hstep
    cases l
    all_goals cases hstep
  case outer.run => exact .testOuter hpc
  case choose.rand r => exact .choose r hpc
  case fill.run => exact .fill hpc
  case pack.run => exact .pack hpc
  case await.load received => exact .await received hpc
  case send.sendto r => exact .sendto r hpc

/-!
What holds between the steps: the messages that the walk has reached are in the packets or in the current one.
-/

structure Collects (cfg : Config) (s : PackingLoop) (first : Nat) (current : List ItchBody) : Prop where
  pkt : s.pkt = List.replicate 20 0 ++ current.flatMap ReplayClient.message
  pktCount : s.pktCount = current.length
  pktFirstSeq : s.pktFirstSeq = first
  i : s.i.toNat = current.length
  le : s.i ≤ s.msgsThisPacket
  small : s.msgsThisPacket ≤ cfg.packMax

theorem Collects.move {first : Nat} {current : List ItchBody} (h : Collects cfg s first current)
    (pos extraBytes : Nat) (pc : Pc)
    : Collects cfg { s with pos := pos, extraBytes := extraBytes, pc := pc } first current :=
  ⟨h.pkt, h.pktCount, h.pktFirstSeq, h.i, h.le, h.small⟩

def Holding (cfg : Config) (s : PackingLoop) (first : Nat) (current : List ItchBody) (pc : Pc) : Prop :=
  match pc with
  | .outer => current = [] ∧ s.pkt = List.replicate 20 0
  | .choose => current = [] ∧ s.pkt = List.replicate 20 0 ∧ s.pos + 2 ≤ cfg.file.length
  | .fill => Collects cfg s first current
  | .pack => Collects cfg s first current
  | .await => s.pkt = ReplayClient.header first current.length ++ current.flatMap ReplayClient.message ∧
      current ≠ [] ∧ current.length ≤ cfg.packMax.toNat
  | .send => s.pkt = ReplayClient.header first current.length ++ current.flatMap ReplayClient.message ∧
      current ≠ [] ∧ current.length ≤ cfg.packMax.toNat
  | .done => current = [] ∧ cfg.file.length < s.pos + 2

structure Inv (cfg : Config) (s : PackingLoop) (walked : List ItchBody) (groups : List (List ItchBody))
    (current : List ItchBody) : Prop where
  walk : ∀ r, deframer.Drains (cfg.file.drop s.pos) r → deframer.Drains cfg.file (walked ++ r.1, r.2)
  listed : walked.filter FileWalk.listed = groups.flatten ++ current
  seq : s.globalMsgSeq = (groups.flatten ++ current).length
  packets : s.packets = ReplayClient.sequenced 0 groups
  small : ∀ g ∈ groups, g ≠ [] ∧ g.length ≤ cfg.packMax.toNat
  holding : s.Holding cfg groups.flatten.length current s.pc

variable {walked : List ItchBody} {groups : List (List ItchBody)} {current : List ItchBody}

theorem Inv.start (cfg : Config) : Inv cfg start [] [] [] where
  walk := fun _ hr => hr
  listed := rfl
  seq := rfl
  packets := rfl
  small := fun _ hg => absurd hg List.not_mem_nil
  holding := ⟨rfl, rfl⟩

theorem Inv.walk_next (h : Inv cfg s walked groups current) {o : Option ItchBody} {pos : Nat}
    (hnext : FileWalk.next (cfg.file.drop s.pos) = some (o, cfg.file.drop pos))
    : ∀ r, deframer.Drains (cfg.file.drop pos) r → deframer.Drains cfg.file (walked ++ o.toList ++ r.1, r.2) := by
  intro r hr
  rw [List.append_assoc]
  exact h.walk _ (Deframer.Drains.step hnext hr)

theorem Inv.walk_eq (h : Inv cfg s walked groups current) (hnext : FileWalk.next (cfg.file.drop s.pos) = none)
    : FileWalk.walk cfg.file = (walked, cfg.file.drop s.pos) := by
  have hdrains := h.walk _ (Deframer.Drains.wait hnext)
  rw [List.append_nil] at hdrains
  exact FileWalk.walk_of_drains hdrains

theorem Inv.cutShort (h : Inv cfg s walked groups current) (hpos : s.pos + 2 ≤ cfg.file.length)
    (hnext : FileWalk.next (cfg.file.drop s.pos) = none) : FileWalk.CutShort cfg.file := by
  unfold FileWalk.CutShort
  rw [h.walk_eq hnext]
  dsimp only
  rw [List.length_drop]
  omega

theorem toNat_add_one {i m : UInt64} (h : i < m) : (i + 1).toNat = i.toNat + 1 := by
  have hlt := UInt64.lt_iff_toNat_lt.1 h
  have hm := m.toNat_lt
  have hone : (1 : UInt64).toNat = 1 := rfl
  rw [UInt64.toNat_add]
  apply Nat.mod_eq_of_lt
  omega

theorem toNat_msgsThisPacket {r m : UInt64} (h : 1 ≤ m)
    : 0 < (1 + r % m).toNat ∧ (1 + r % m).toNat ≤ m.toNat := by
  have hone : (1 : UInt64).toNat = 1 := rfl
  have hpos := UInt64.le_iff_toNat_le.1 h
  rw [hone] at hpos
  have hlt := Nat.mod_lt r.toNat hpos
  have hm := m.toNat_lt
  have hsum : (1 + r % m).toNat = 1 + r.toNat % m.toNat := by
    rw [UInt64.toNat_add, UInt64.toNat_mod]
    apply Nat.mod_eq_of_lt
    omega
  omega

theorem Inv.filled (h : Inv cfg s walked groups current) (hpc : s.pc = .fill) (hfilled : Filled cfg s s')
    : ∃ walked current, Inv cfg s' walked groups current := by
  have hcollects := h.holding
  rw [hpc] at hcollects
  have hcollects : Collects cfg s groups.flatten.length current := hcollects
  cases hfilled with
  | full hend => exact ⟨walked, current, h.walk, h.listed, h.seq, h.packets, h.small, hcollects.move _ _ _⟩
  | skip hi hpos hnext =>
    refine ⟨walked ++ [], current, h.walk_next hnext, ?_, h.seq, h.packets, h.small, ?_⟩
    . rw [List.append_nil]
      exact h.listed
    . rw [hpc]
      exact hcollects.move _ _ _
  | cut hi hpos hnext =>
    exact ⟨walked, current, h.walk, h.listed, h.seq, h.packets, h.small, hcollects.move _ _ _⟩
  | filtered b hi hpos hlisted hnext =>
    refine ⟨walked ++ [b], current, h.walk_next hnext, ?_, h.seq, h.packets, h.small, ?_⟩
    . rw [List.filter_append, List.filter_singleton, hlisted, h.listed]
      exact List.append_nil _
    . rw [hpc]
      exact hcollects.move _ _ _
  | packed b hi hpos hlisted hnext =>
    refine ⟨walked ++ [b], current ++ [b], h.walk_next hnext, ?_, ?_, h.packets, h.small, ?_⟩
    . rw [List.filter_append, List.filter_singleton, hlisted, h.listed, List.append_assoc]
      rfl
    . rw [← List.append_assoc, List.length_append, ← h.seq]
      rfl
    . have hi' := toNat_add_one hi
      rw [hpc]
      constructor
      . rw [List.flatMap_append, ← List.append_assoc, ← hcollects.pkt, List.flatMap_singleton]
      . rw [List.length_append, ← hcollects.pktCount]
        rfl
      . exact hcollects.pktFirstSeq
      . rw [List.length_append, ← hcollects.i]
        exact hi'
      . rw [UInt64.le_iff_toNat_le, hi']
        exact UInt64.lt_iff_toNat_lt.1 hi
      . exact hcollects.small

theorem Inv.pack (h : Inv cfg s walked groups current) (hpc : s.pc = .pack)
    : Inv cfg (s.pack cfg) walked groups current := by
  have hcollects := h.holding
  rw [hpc] at hcollects
  have hcollects : Collects cfg s groups.flatten.length current := hcollects
  unfold PackingLoop.pack
  split
  . next hcount =>
    have hne : current ≠ [] := by
      intro hnil
      rw [hcollects.pktCount, hnil] at hcount
      exact absurd hcount (Nat.lt_irrefl 0)
    have hle : current.length ≤ cfg.packMax.toNat := by
      rw [← hcollects.i]
      exact UInt64.le_iff_toNat_le.1 (UInt64.le_trans hcollects.le hcollects.small)
    have hpkt : ReplayClient.header s.pktFirstSeq s.pktCount ++ s.pkt.drop 20 =
        ReplayClient.header groups.flatten.length current.length ++ current.flatMap ReplayClient.message := by
      rw [hcollects.pkt, hcollects.pktFirstSeq, hcollects.pktCount, List.drop_left' List.length_replicate]
    refine ⟨h.walk, h.listed, h.seq, h.packets, h.small, ?_⟩
    dsimp only
    split
    . exact ⟨hpkt, hne, hle⟩
    . exact ⟨hpkt, hne, hle⟩
  . next hcount =>
    have hnil : current = [] := by
      apply List.eq_nil_of_length_eq_zero
      rw [← hcollects.pktCount]
      exact Nat.eq_zero_of_not_pos hcount
    exact ⟨h.walk, h.listed, h.seq, h.packets, h.small, hnil, rfl⟩

theorem Inv.choose (h : Inv cfg s walked groups current) (hpc : s.pc = .choose) (hpack : 1 ≤ cfg.packMax) (r : UInt64)
    : Inv cfg (s.choose cfg r) walked groups current := by
  have hholding := h.holding
  rw [hpc] at hholding
  obtain ⟨hnil, hpkt, _⟩ := hholding
  refine ⟨h.walk, h.listed, h.seq, h.packets, h.small, ?_⟩
  rw [hnil]
  constructor
  . rw [List.flatMap_nil, List.append_nil]
    exact hpkt
  . rfl
  . have hseq := h.seq
    rw [hnil, List.append_nil] at hseq
    exact hseq
  . rfl
  . exact UInt64.le_iff_toNat_le.2 (Nat.zero_le _)
  . exact UInt64.le_iff_toNat_le.2 (toNat_msgsThisPacket hpack).2

theorem Inv.sendto (h : Inv cfg s walked groups current) (hpc : s.pc = .send) (r : Int)
    : Inv cfg (s.sendto cfg r) walked (groups ++ [current]) [] := by
  have hholding := h.holding
  rw [hpc] at hholding
  obtain ⟨hpkt, hne, hle⟩ := hholding
  have hflatten : (groups ++ [current]).flatten = groups.flatten ++ current := by
    rw [List.flatten_append, List.flatten_singleton]
  constructor
  . exact h.walk
  . rw [hflatten, List.append_nil]
    exact h.listed
  . rw [hflatten, List.append_nil]
    exact h.seq
  . rw [ReplayClient.sequenced_concat, Nat.zero_add, ← hpkt, ← h.packets]
    rfl
  . intro g hg
    rw [List.mem_append, List.mem_singleton] at hg
    cases hg with
    | inl hmem => exact h.small g hmem
    | inr heq =>
      rw [heq]
      exact ⟨hne, hle⟩
  . exact ⟨rfl, rfl⟩

def Invariant (cfg : Config) (s : PackingLoop) : Prop := ∃ walked groups current, Inv cfg s walked groups current

theorem Invariant.step (h : Invariant cfg s) (hpack : 1 ≤ cfg.packMax) {l : Label} (hstep : step cfg s l = some s')
    : Invariant cfg s' := by
  obtain ⟨walked, groups, current, h⟩ := h
  have hholding := h.holding
  cases moved hstep with
  | testOuter hpc =>
    rw [hpc] at hholding
    unfold testOuter
    split
    . next hpos =>
      exact ⟨walked, groups, current, h.walk, h.listed, h.seq, h.packets, h.small, hholding.1, hholding.2, hpos⟩
    . next hpos =>
      have hlt := Nat.lt_of_not_le hpos
      exact ⟨walked, groups, current, h.walk, h.listed, h.seq, h.packets, h.small, hholding.1, hlt⟩
  | choose r hpc => exact ⟨walked, groups, current, h.choose hpc hpack r⟩
  | fill hpc =>
    obtain ⟨walked, current, h⟩ := h.filled hpc (filled cfg s)
    exact ⟨walked, groups, current, h⟩
  | pack hpc => exact ⟨walked, groups, current, h.pack hpc⟩
  | await received hpc =>
    unfold PackingLoop.await
    split
    . exact ⟨walked, groups, current, h⟩
    . rw [hpc] at hholding
      exact ⟨walked, groups, current, h.walk, h.listed, h.seq, h.packets, h.small, hholding⟩
  | sendto r hpc => exact ⟨walked, groups ++ [current], [], h.sendto hpc r⟩

/-!
The rank of a state. A round of the `for` that moves on in the file pays for all that comes until the next one.
-/

def rank (cfg : Config) (s : PackingLoop) : Nat :=
  7 * (cfg.file.length - s.pos) +
    match s.pc with
    | .outer => 2
    | .choose => 1
    | .fill => if s.i < s.msgsThisPacket ∧ s.pos + 2 ≤ cfg.file.length then 0 else 6
    | .pack => 5
    | .await => 4
    | .send => 3
    | .done => 0

def Label.moves (l : Label) : Bool :=
  match l with
  | .load _ => false
  | _ => true

theorem rank_advance (hpc : s.pc = .fill) (hpc' : s'.pc = .fill) (hi : s.i < s.msgsThisPacket)
    (hpos : s.pos + 2 ≤ cfg.file.length) (hlt : s.pos < s'.pos) : s'.rank cfg < s.rank cfg := by
  have hfrom : s.rank cfg = 7 * (cfg.file.length - s.pos) := by
    unfold rank
    rw [hpc]
    exact congrArg _ (if_pos ⟨hi, hpos⟩)
  have hto : s'.rank cfg ≤ 7 * (cfg.file.length - s'.pos) + 6 := by
    unfold rank
    rw [hpc']
    dsimp only
    split
    . omega
    . omega
  omega

theorem rank_filled (h : Inv cfg s walked groups current) (hcut : ¬ FileWalk.CutShort cfg.file) (hpc : s.pc = .fill)
    (hfilled : Filled cfg s s') : s'.rank cfg < s.rank cfg := by
  cases hfilled with
  | full hend =>
    unfold rank
    rw [hpc]
    dsimp only
    rw [if_neg hend]
    omega
  | skip hi hpos hnext => exact rank_advance hpc hpc hi hpos (Nat.lt_succ_self _)
  | cut hi hpos hnext => exact absurd (h.cutShort hpos hnext) hcut
  | filtered b hi hpos hlisted hnext => exact rank_advance hpc hpc hi (by omega) (by dsimp only; omega)
  | packed b hi hpos hlisted hnext => exact rank_advance hpc hpc hi (by omega) (by dsimp only; omega)

theorem rank_step (h : Invariant cfg s) (hpack : 1 ≤ cfg.packMax) (hcut : ¬ FileWalk.CutShort cfg.file) {l : Label}
    (hstep : step cfg s l = some s') : s'.rank cfg ≤ s.rank cfg ∧ (l.moves = true → s'.rank cfg < s.rank cfg) := by
  -- On a file without a cut message every step but a load of `received` lowers the rank.
  obtain ⟨walked, groups, current, h⟩ := h
  suffices hsuff : s'.rank cfg < s.rank cfg ∨ (l.moves = false ∧ s'.rank cfg ≤ s.rank cfg) by
    cases hsuff with
    | inl hlt => exact ⟨Nat.le_of_lt hlt, fun _ => hlt⟩
    | inr hload =>
      refine ⟨hload.2, ?_⟩
      intro hmoves
      rw [hload.1] at hmoves
      cases hmoves
  have hholding := h.holding
  cases moved hstep with
  | testOuter hpc =>
    left
    unfold testOuter
    split
    . unfold rank
      rw [hpc]
      dsimp only
      omega
    . unfold rank
      rw [hpc]
      dsimp only
      omega
  | choose r hpc =>
    left
    rw [hpc] at hholding
    have hi : (0 : UInt64) < 1 + r % cfg.packMax := UInt64.lt_iff_toNat_lt.2 (toNat_msgsThisPacket hpack).1
    have hto : (s.choose cfg r).rank cfg = 7 * (cfg.file.length - s.pos) := congrArg _ (if_pos ⟨hi, hholding.2.2⟩)
    have hfrom : s.rank cfg = 7 * (cfg.file.length - s.pos) + 1 := by
      unfold rank
      rw [hpc]
    omega
  | fill hpc =>
    left
    exact rank_filled h hcut hpc (filled cfg s)
  | pack hpc =>
    left
    unfold PackingLoop.pack rank
    rw [hpc]
    split
    . dsimp only
      cases cfg.fc with
      | true => exact Nat.lt_succ_self _
      | false =>
        show _ + 3 < _ + 5
        omega
    . dsimp only
      omega
  | await received hpc =>
    right
    refine ⟨rfl, ?_⟩
    unfold PackingLoop.await
    split
    . exact Nat.le_refl _
    . unfold rank
      rw [hpc]
      dsimp only
      omega
  | sendto r hpc =>
    left
    unfold PackingLoop.sendto rank
    rw [hpc]
    dsimp only
    omega

theorem exists_step (h : Invariant cfg s) (hpack : 1 ≤ cfg.packMax) (hcut : ¬ FileWalk.CutShort cfg.file)
    (hdone : s.pc ≠ .done) : ∃ l s', step cfg s l = some s' ∧ s'.rank cfg < s.rank cfg := by
  have hlower : ∀ l s', step cfg s l = some s' → l.moves = true →
      ∃ l s', step cfg s l = some s' ∧ s'.rank cfg < s.rank cfg :=
    fun l s' hstep hmoves => ⟨l, s', hstep, (rank_step h hpack hcut hstep).2 hmoves⟩
  cases hpc : s.pc with
  | outer => exact hlower .run (s.testOuter cfg) (by unfold step; rw [hpc]) rfl
  | choose => exact hlower (.rand 0) (s.choose cfg 0) (by unfold step; rw [hpc]) rfl
  | fill => exact hlower .run (s.fill cfg) (by unfold step; rw [hpc]) rfl
  | pack => exact hlower .run (s.pack cfg) (by unfold step; rw [hpc]) rfl
  | await =>
    refine ⟨.load s.sent, s.await s.sent, by unfold step; rw [hpc], ?_⟩
    unfold PackingLoop.await
    rw [if_neg (Nat.lt_irrefl _)]
    unfold rank
    rw [hpc]
    exact Nat.lt_succ_self _
  | send => exact hlower (.sendto 0) (s.sendto cfg 0) (by unfold step; rw [hpc]) rfl
  | done => exact absurd hpc hdone

/--
The packets hold the messages of the file, each once, in order and with the numbers from 0 on.
-/
def Packed (cfg : Config) (s : PackingLoop) : Prop :=
  ∃ groups : List (List ItchBody),
    groups.flatten = FileWalk.messages cfg.file ∧ s.packets = ReplayClient.sequenced 0 groups ∧
      (∀ g ∈ groups, g ≠ [] ∧ g.length ≤ cfg.packMax.toNat) ∧
      s.globalMsgSeq = (FileWalk.messages cfg.file).length

theorem Invariant.packed (h : Invariant cfg s) (hdone : s.pc = .done) : Packed cfg s := by
  obtain ⟨walked, groups, current, h⟩ := h
  have hholding := h.holding
  rw [hdone] at hholding
  obtain ⟨hnil, hend⟩ := hholding
  have hnext : FileWalk.next (cfg.file.drop s.pos) = none := by
    apply FileWalk.next_end
    rw [List.length_drop]
    omega
  have hmessages : groups.flatten = FileWalk.messages cfg.file := by
    unfold FileWalk.messages
    rw [h.walk_eq hnext, h.listed, hnil, List.append_nil]
  refine ⟨groups, hmessages, h.packets, h.small, ?_⟩
  rw [h.seq, hnil, List.append_nil, hmessages]

theorem Invariant.whole (h : Invariant cfg s) (hdone : s.pc = .done) : ¬ FileWalk.CutShort cfg.file := by
  obtain ⟨walked, groups, current, h⟩ := h
  have hholding := h.holding
  rw [hdone] at hholding
  have hend : cfg.file.length < s.pos + 2 := hholding.2
  have hshort : (cfg.file.drop s.pos).length < 2 := by
    rw [List.length_drop]
    omega
  unfold FileWalk.CutShort
  rw [h.walk_eq (FileWalk.next_end hshort)]
  exact Nat.not_le_of_lt hshort

/--
Whatever `rand`, `sendto` and the other process do, the loop takes a bounded number of steps besides the loads of its
wait, it can always go on to its end, and at the end the packets hold the messages.
-/
structure Replays (cfg : Config) : Prop where
  bounded : ∃ n, ∀ ls s, Run.exec (step cfg) start ls = some s → ls.countP Label.moves ≤ n
  finishes : ∀ ls s, Run.exec (step cfg) start ls = some s → ∃ s', Run.Reaches (step cfg) s s' ∧ s'.pc = .done
  packed : ∀ ls s, Run.exec (step cfg) start ls = some s → s.pc = .done → Packed cfg s

theorem Invariant.run (hpack : 1 ≤ cfg.packMax) {ls : List Label}
    (hexec : Run.exec (PackingLoop.step cfg) start ls = some s) : Invariant cfg s := by
  apply Run.exec_keeps _ _ hexec
  . intro s l s' h hstep
    exact h.step hpack hstep
  . exact ⟨[], [], [], Inv.start cfg⟩

theorem replays_iff (hpack : 1 ≤ cfg.packMax) : Replays cfg ↔ ¬ FileWalk.CutShort cfg.file := by
  constructor
  . intro h
    obtain ⟨s, hreaches, hdone⟩ := h.finishes [] start rfl
    obtain ⟨ls, hexec⟩ := hreaches
    exact (Invariant.run hpack hexec).whole hdone
  . intro hcut
    constructor
    . have hdown : ∀ s l s', Invariant cfg s → PackingLoop.step cfg s l = some s' →
          Invariant cfg s' ∧ rank cfg s' ≤ rank cfg s ∧ (Label.moves l = true → rank cfg s' < rank cfg s) := by
        intro s l s' h hstep
        have hrank := rank_step h hpack hcut hstep
        exact ⟨h.step hpack hstep, hrank.1, hrank.2⟩
      refine ⟨start.rank cfg, ?_⟩
      intro ls s hexec
      have hcount := Run.countP_le hdown ⟨[], [], [], Inv.start cfg⟩ hexec
      omega
    . have hnext : ∀ s, Invariant cfg s → s.pc = .done ∨
          ∃ l s', PackingLoop.step cfg s l = some s' ∧ Invariant cfg s' ∧ rank cfg s' < rank cfg s := by
        intro s h
        by_cases hdone : s.pc = .done
        . exact Or.inl hdone
        . obtain ⟨l, s', hstep, hlt⟩ := exists_step h hpack hcut hdone
          exact Or.inr ⟨l, s', hstep, h.step hpack hstep, hlt⟩
      intro ls s hexec
      exact Run.reaches_final hnext (Invariant.run hpack hexec)
    . intro ls s hexec hdone
      exact (Invariant.run hpack hexec).packed hdone

/--
A message, one of the type R, a byte at which nothing starts, another message and a byte that is left.
-/
def trimmed : Config where
  file := [0, 1, 65, 0, 2, 82, 7, 9, 0, 1, 66, 0]
  packMax := 2
  fc := true

theorem replays_trimmed : Replays trimmed := (replays_iff (by decide)).2 (by decide)

def truncated : Config where
  file := [0, 5, 65]
  packMax := 100
  fc := false

/--
The `for` leaves a message that is cut short where it is, and the `while` comes back to it.
-/
theorem not_replays : ¬ Replays truncated := by
  intro h
  obtain ⟨s, hreaches, hdone⟩ := h.finishes [] start rfl
  obtain ⟨ls, hexec⟩ := hreaches
  have hpack : 1 ≤ truncated.packMax := by decide
  have hwhole := (Invariant.run hpack hexec).whole hdone
  revert hwhole
  decide

end PackingLoop

end NebulaXTrader
