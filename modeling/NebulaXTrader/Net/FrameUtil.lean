import NebulaXTrader.Lib.CheckedRead

/-!
This module contains the model of `extract_udp_payload` with its reads checked against the frame, and the theorem that
it is safe on every frame and undoes the encapsulation of a payload.
-/

namespace NebulaXTrader

namespace FrameUtil

open CheckedRead (byte bigEndian)
open Positional (bytes word)

def kEthLen : Nat := 14

def kMinIpLen : Nat := 20

def kUdpLen : Nat := 8

def kMinPayload : Nat := 20

/--
The offset and the length of the payload, or none inside where the function returns 0. The outer `none` is a read
outside of the frame.
-/
def extractUdpPayload (frame : List UInt8) (dport : Nat) : Option (Option (Nat × Nat)) :=
  if frame.length < kEthLen + kMinIpLen + kUdpLen + kMinPayload then
    some none
  else do
    let ethType ← bigEndian 2 frame 12
    if ethType ≠ 0x0800 then
      return none
    let ihl := (← byte frame 14) % 16
    if ihl < 5 then
      return none
    let ipOff := kEthLen
    if (← byte frame (ipOff + 9)) ≠ 17 then
      return none
    let udpOff := ipOff + ihl * 4
    if udpOff + kUdpLen > frame.length then
      return none
    let fDport ← bigEndian 2 frame (udpOff + 2)
    if fDport ≠ dport then
      return none
    let udpLen ← bigEndian 2 frame (udpOff + 4)
    if udpLen < kUdpLen + kMinPayload then
      return none
    let payloadOff := udpOff + kUdpLen
    let plen := udpLen - kUdpLen
    if payloadOff + plen > frame.length then
      return none
    return some (payloadOff, plen)

def payloadAt (frame : List UInt8) (p : Nat × Nat) : List UInt8 := (frame.drop p.1).take p.2

/--
What stands around a payload. The fields that are not named after their content can hold anything.
-/
structure Encapsulation where
  macs : List UInt8
  version : Fin 16
  ihl : Fin 16
  ipFront : List UInt8
  ipBack : List UInt8
  sport : List UInt8
  dport : Fin (2 ^ 16)
  checksum : List UInt8
  padding : List UInt8
  macs_length : macs.length = 12
  ihl_ge : 5 ≤ ihl.val
  ipFront_length : ipFront.length = 8
  ipBack_length : ipBack.length = 4 * ihl.val - 10
  sport_length : sport.length = 2
  checksum_length : checksum.length = 2

namespace Encapsulation

def ethType : List UInt8 := [0x08, 0x00]

def versionIhl (e : Encapsulation) : UInt8 := UInt8.ofNat (e.version.val * 16 + e.ihl.val)

/--
The length field of the UDP header counts the header.
-/
def udpLength (payload : List UInt8) : List UInt8 := bytes 2 (payload.length + 8)

def frame (e : Encapsulation) (payload : List UInt8) : List UInt8 :=
  e.macs ++ (ethType ++ (e.versionIhl :: (e.ipFront ++ (17 :: (e.ipBack ++ (e.sport ++
    (bytes 2 e.dport ++ (udpLength payload ++ (e.checksum ++ (payload ++ e.padding))))))))))

end Encapsulation

def Inside (frame : List UInt8) (r : Option (Option (Nat × Nat))) : Prop :=
  ∃ o, r = some o ∧ ∀ p, o = some p → 0 < p.2 ∧ p.1 + p.2 ≤ frame.length

theorem inside_guard {frame : List UInt8} {c : Prop} [Decidable c] {r : Option (Option (Nat × Nat))}
    (h : ¬c → Inside frame r) : Inside frame (if c then pure none else r) := by
  split
  . refine ⟨none, rfl, ?_⟩
    intro p hp
    cases hp
  . next hc => exact h hc

theorem extract_inside (frame : List UInt8) (dport : Nat) : Inside frame (extractUdpPayload frame dport) := by
  unfold extractUdpPayload
  simp only [Option.bind_eq_bind]
  apply inside_guard
  intro hlength
  have hmin : 62 ≤ frame.length := Nat.not_lt.1 hlength
  rw [CheckedRead.bigEndian_eq (by omega), Option.bind_some]
  apply inside_guard
  intro _
  rw [CheckedRead.byte_eq (by omega), Option.bind_some]
  -- the length of the header comes from the frame, so the bound of what follows is checked again
  generalize frame[14].toNat % 16 = ihl
  apply inside_guard
  intro _
  have hproto : kEthLen + 9 < frame.length := by
    unfold kEthLen
    omega
  rw [CheckedRead.byte_eq hproto, Option.bind_some]
  apply inside_guard
  intro _
  generalize kEthLen + ihl * 4 = udpOff
  apply inside_guard
  intro hudp
  unfold kUdpLen at hudp
  rw [CheckedRead.bigEndian_eq (by omega), Option.bind_some]
  apply inside_guard
  intro _
  rw [CheckedRead.bigEndian_eq (by omega), Option.bind_some]
  generalize word ((frame.drop (udpOff + 4)).take 2) = udpLen
  apply inside_guard
  intro hpayload
  apply inside_guard
  intro hfits
  unfold kUdpLen kMinPayload at hpayload
  unfold kUdpLen at hfits
  refine ⟨_, rfl, ?_⟩
  intro p hp
  cases hp
  unfold kUdpLen
  constructor
  . show 0 < udpLen - 8
    omega
  . show udpOff + 8 + (udpLen - 8) ≤ frame.length
    omega

section

variable (e : Encapsulation) (payload : List UInt8)

theorem length_frame : (e.frame payload).length = 14 + e.ihl.val * 4 + 8 + payload.length + e.padding.length := by
  have hihl := e.ihl_ge
  unfold Encapsulation.frame Encapsulation.udpLength Encapsulation.ethType
  simp only [List.length_append, List.length_cons, List.length_nil, Positional.length_bytes, e.macs_length,
    e.ipFront_length, e.ipBack_length, e.sport_length, e.checksum_length]
  omega

theorem frame_ethType : bigEndian 2 (e.frame payload) 12 = some 0x0800 :=
  CheckedRead.bigEndian_append e.macs_length rfl

theorem frame_versionIhl : byte (e.frame payload) 14 = some e.versionIhl.toNat := by
  have hpre : (e.macs ++ Encapsulation.ethType).length = 14 := by
    rw [List.length_append, e.macs_length]
    rfl
  unfold Encapsulation.frame
  rw [← List.append_assoc]
  apply CheckedRead.byte_append hpre

theorem versionIhl_mod : e.versionIhl.toNat % 16 = e.ihl := by
  have hversion := e.version.isLt
  have hihl := e.ihl.isLt
  unfold Encapsulation.versionIhl
  rw [UInt8.toNat_ofNat']
  omega

theorem frame_proto : byte (e.frame payload) 23 = some 17 := by
  have hpre : (e.macs ++ Encapsulation.ethType ++ [e.versionIhl] ++ e.ipFront).length = 23 := by
    have htype : Encapsulation.ethType.length = 2 := rfl
    simp only [List.length_append, List.length_singleton, e.macs_length, e.ipFront_length, htype]
  unfold Encapsulation.frame
  rw [← List.append_assoc, List.append_cons _ e.versionIhl, ← List.append_assoc]
  apply CheckedRead.byte_append hpre

def ipPart : List UInt8 :=
  e.macs ++ Encapsulation.ethType ++ [e.versionIhl] ++ e.ipFront ++ [17] ++ e.ipBack

theorem length_ipPart : (ipPart e).length = 14 + e.ihl.val * 4 := by
  have hihl := e.ihl_ge
  have htype : Encapsulation.ethType.length = 2 := rfl
  unfold ipPart
  simp only [List.length_append, List.length_singleton, e.macs_length, e.ipFront_length, e.ipBack_length, htype]
  omega

theorem frame_eq : e.frame payload = ipPart e ++ (e.sport ++
    (bytes 2 e.dport ++ (Encapsulation.udpLength payload ++ (e.checksum ++ (payload ++ e.padding))))) := by
  unfold ipPart
  simp only [List.append_assoc, List.cons_append, List.nil_append]
  rfl

theorem frame_dport : bigEndian 2 (e.frame payload) (14 + e.ihl.val * 4 + 2) = some e.dport.val := by
  have hpre : (ipPart e ++ e.sport).length = 14 + e.ihl.val * 4 + 2 := by
    rw [List.length_append, length_ipPart, e.sport_length]
  have hword : word (bytes 2 e.dport.val) = e.dport.val := by
    rw [Positional.word_bytes]
    exact Nat.mod_eq_of_lt e.dport.isLt
  rw [frame_eq, ← List.append_assoc, CheckedRead.bigEndian_append hpre (Positional.length_bytes 2 _), hword]

theorem frame_udpLength (h : payload.length + 8 < 2 ^ 16)
    : bigEndian 2 (e.frame payload) (14 + e.ihl.val * 4 + 4) = some (payload.length + 8) := by
  have hpre : (ipPart e ++ e.sport ++ bytes 2 e.dport).length = 14 + e.ihl.val * 4 + 4 := by
    rw [List.length_append, List.length_append, length_ipPart, e.sport_length, Positional.length_bytes]
  have hword : word (Encapsulation.udpLength payload) = payload.length + 8 := by
    unfold Encapsulation.udpLength
    rw [Positional.word_bytes]
    exact Nat.mod_eq_of_lt h
  have hlength : (Encapsulation.udpLength payload).length = 2 := Positional.length_bytes 2 _
  rw [frame_eq, ← List.append_assoc, ← List.append_assoc, CheckedRead.bigEndian_append hpre hlength, hword]

theorem frame_payload : payloadAt (e.frame payload) (14 + e.ihl.val * 4 + 8, payload.length) = payload := by
  have hpre : (ipPart e ++ e.sport ++ bytes 2 e.dport ++ Encapsulation.udpLength payload ++ e.checksum).length =
      14 + e.ihl.val * 4 + 8 := by
    have hlength : (Encapsulation.udpLength payload).length = 2 := Positional.length_bytes 2 _
    rw [List.length_append, List.length_append, List.length_append, List.length_append, length_ipPart,
      e.sport_length, Positional.length_bytes, hlength, e.checksum_length]
  unfold payloadAt
  rw [frame_eq, ← List.append_assoc, ← List.append_assoc, ← List.append_assoc, ← List.append_assoc]
  dsimp only
  rw [List.drop_left' hpre, List.take_left' rfl]

end

theorem extract_frame (e : Encapsulation) {payload : List UInt8} (hmin : 20 ≤ payload.length)
    (hmax : payload.length ≤ 65507) (dport : Nat)
    : extractUdpPayload (e.frame payload) dport =
        some (if dport = e.dport.val then some (14 + e.ihl.val * 4 + 8, payload.length) else none) := by
  have hlength := length_frame e payload
  have hihl := e.ihl_ge
  unfold extractUdpPayload
  simp only [Option.bind_eq_bind]
  rw [if_neg (by unfold kEthLen kMinIpLen kUdpLen kMinPayload; omega), frame_ethType, Option.bind_some,
    if_neg (by decide), frame_versionIhl, Option.bind_some, versionIhl_mod, if_neg (by omega)]
  have hproto : byte (e.frame payload) (kEthLen + 9) = some 17 := frame_proto e payload
  rw [hproto, Option.bind_some, if_neg (by decide), if_neg (by unfold kEthLen kUdpLen; omega)]
  have hdport : bigEndian 2 (e.frame payload) (kEthLen + e.ihl.val * 4 + 2) = some e.dport.val := frame_dport e payload
  rw [hdport, Option.bind_some]
  by_cases h : dport = e.dport.val
  . have hudp : bigEndian 2 (e.frame payload) (kEthLen + e.ihl.val * 4 + 4) = some (payload.length + 8) := by
      apply frame_udpLength
      omega
    rw [if_neg (by simp [h]), if_pos h, hudp, Option.bind_some, if_neg (by unfold kUdpLen kMinPayload; omega),
      if_neg (by unfold kEthLen kUdpLen; omega)]
    rfl
  . rw [if_pos (fun heq => h heq.symm), if_neg h]
    rfl

/--
The function reads inside of every frame and answers with a part of it, and on the encapsulation of a payload it answers
with the payload if the port is the one that it looks for.
-/
theorem strip_inverts
    : (∀ frame dport, Inside frame (extractUdpPayload frame dport)) ∧
      ∀ (e : Encapsulation) payload dport, 20 ≤ payload.length → payload.length ≤ 65507 →
        ∃ r,
          extractUdpPayload (e.frame payload) dport = some r
            ∧
          r.map (payloadAt (e.frame payload)) = if dport = e.dport.val then some payload else none := by
  refine ⟨extract_inside, ?_⟩
  intro e payload dport hmin hmax
  refine ⟨_, extract_frame e hmin hmax dport, ?_⟩
  split
  . rw [Option.map_some, frame_payload]
  . rfl

def shortest : Encapsulation where
  macs := List.replicate 12 0
  version := 4
  ihl := 5
  ipFront := List.replicate 8 0
  ipBack := List.replicate 10 0
  sport := [0, 1]
  dport := 12345
  checksum := [0, 0]
  padding := [0]
  macs_length := rfl
  ihl_ge := by decide
  ipFront_length := rfl
  ipBack_length := rfl
  sport_length := rfl
  checksum_length := rfl

theorem strip_inverts_shortest
    : ∃ r,
        extractUdpPayload (shortest.frame (List.replicate 20 7)) 12345 = some r
          ∧
        r.map (payloadAt (shortest.frame (List.replicate 20 7))) = some (List.replicate 20 7) := by
  have h := strip_inverts.2 shortest (List.replicate 20 7) 12345 (by decide) (by decide)
  have hdport : 12345 = shortest.dport.val := by decide
  rwa [if_pos hdport] at h

end FrameUtil

end NebulaXTrader
