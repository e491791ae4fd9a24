import NebulaXTrader.Lib.CheckedRead
import NebulaXTrader.Market.ItchLayout

/-!
This module contains the model of `ItchParser::feed` with its reads checked against the length, its return value and the
events that it emits, and the theorem which byte strings it accepts as the protocol document asks.
-/

namespace NebulaXTrader

namespace ItchBounds

open CheckedRead (byte bigEndian)

/--
What a call of `feed` returns and hands to the sink.
-/
structure Fed where
  returned : Bool
  emitted : List MarketEvent

def readU16 := bigEndian 2

def readU32 := bigEndian 4

def readU64 := bigEndian 8

def readTs := bigEndian 6

def readSide (m : List UInt8) : Option OrderSide :=
  (byte m 19).map (fun b => if b = 83 then .SELL else .BUY)

def emit (m : List UInt8) (seq locate : Nat) (body : MarketEvent.Body) : Option (List MarketEvent) := do
  let timestamp ← readTs m 5
  return [{ seqId := seq, locate := locate, timestamp := timestamp, body := body }]

def parseA (m : List UInt8) (seq : Nat) : Option (List MarketEvent) :=
  if m.length < 36 then
    some []
  else do
    let locate ← readU16 m 1
    let oref ← readU64 m 11
    let side ← readSide m
    let shares ← readU32 m 20
    let price ← readU32 m 32
    emit m seq locate (.ADD {
      side := side
      price := ItchParser.itchToCents price
      shares := shares
      orderRef := oref
    })

def parseD (m : List UInt8) (seq : Nat) : Option (List MarketEvent) :=
  if m.length < 19 then
    some []
  else do
    let locate ← readU16 m 1
    let oref ← readU64 m 11
    emit m seq locate (.DELETE { orderRef := oref })

def parseX (m : List UInt8) (seq : Nat) : Option (List MarketEvent) :=
  if m.length < 23 then
    some []
  else do
    let locate ← readU16 m 1
    let oref ← readU64 m 11
    let cshares ← readU32 m 19
    emit m seq locate (.CANCEL { orderRef := oref, shares := cshares })

def parseU (m : List UInt8) (seq : Nat) : Option (List MarketEvent) :=
  if m.length < 35 then
    some []
  else do
    let locate ← readU16 m 1
    let oldref ← readU64 m 11
    let newref ← readU64 m 19
    let shares ← readU32 m 27
    let price ← readU32 m 31
    emit m seq locate (.REPLACE {
      orderRef := oldref
      newOrderRef := newref
      price := ItchParser.itchToCents price
      shares := shares
    })

def parseP (m : List UInt8) (seq : Nat) : Option (List MarketEvent) :=
  if m.length < 44 then
    some []
  else do
    let locate ← readU16 m 1
    let oref ← readU64 m 11
    let shares ← readU32 m 20
    let price ← readU32 m 32
    let side ← readSide m
    emit m seq locate (.TRADE {
      side := side
      price := ItchParser.itchToCents price
      volume := shares
      orderRef := oref
    })

def parseE (m : List UInt8) (seq : Nat) : Option (List MarketEvent) :=
  if m.length < 31 then
    some []
  else do
    let locate ← readU16 m 1
    let oref ← readU64 m 11
    let shares ← readU32 m 19
    emit m seq locate (.EXECUTE { side := .NONE, price := -1, volume := shares, orderRef := oref })

def parseC (m : List UInt8) (seq : Nat) : Option (List MarketEvent) :=
  if m.length < 35 then
    some []
  else do
    let locate ← readU16 m 1
    let oref ← readU64 m 11
    let shares ← readU32 m 19
    let price ← readU32 m 27
    emit m seq locate (.TRADE {
      side := .NONE
      price := ItchParser.itchToCents price
      volume := shares
      orderRef := oref
    })

def handled (emitted : Option (List MarketEvent)) : Option Fed := emitted.map (fun l => ⟨true, l⟩)

/--
`none` after a read outside of the message. The return value does not depend on what the handler did.
-/
def feed (msg : List UInt8) (seq : Nat) : Option Fed :=
  if msg.length < 3 then
    some ⟨false, []⟩
  else do
    let mt ← byte msg 0
    match mt with
    | 65 | 70 => handled (parseA msg seq)
    | 68 => handled (parseD msg seq)
    | 88 => handled (parseX msg seq)
    | 85 => handled (parseU msg seq)
    | 80 => handled (parseP msg seq)
    | 69 => handled (parseE msg seq)
    | 67 => handled (parseC msg seq)
    | _ => some ⟨false, []⟩

section

variable {m : List UInt8} {n off : Nat}

theorem bigEndian_rd (h : off + n ≤ m.length) : bigEndian n m off = some (ItchParser.rdBytes n m off) := by
  rw [CheckedRead.bigEndian_eq h, ItchParser.rdBytes_eq h]

theorem readU16_eq (h : off + 2 ≤ m.length) : readU16 m off = some (ItchParser.rdU16 m off) := bigEndian_rd h

theorem readU32_eq (h : off + 4 ≤ m.length) : readU32 m off = some (ItchParser.rdU32 m off) := bigEndian_rd h

theorem readU64_eq (h : off + 8 ≤ m.length) : readU64 m off = some (ItchParser.rdU64 m off) := bigEndian_rd h

theorem readSide_eq (h : 19 < m.length) : readSide m = some (ItchParser.rdSide m) := by
  unfold readSide ItchParser.rdSide
  rw [CheckedRead.byte_eq h, List.getD_eq_getElem?_getD, List.getElem?_eq_getElem h]
  have hletter : m[19].toNat = 83 ↔ m[19] = 83 := UInt8.toNat_inj (b := 83)
  simp only [Option.map_some, Option.getD_some, hletter]

theorem emit_eq {seq : Nat} {body : MarketEvent.Body} (h : 11 ≤ m.length)
    : emit m seq (ItchParser.rdU16 m 1) body = some [ItchParser.emit m seq body] := by
  have htimestamp : readTs m 5 = some (ItchParser.rdTs m 5) := bigEndian_rd (by omega)
  unfold emit
  rw [htimestamp]
  rfl

theorem parseA_eq (m : List UInt8) (seq : Nat) : parseA m seq = some (ItchParser.parseA m seq).toList := by
  unfold parseA ItchParser.parseA
  split
  . rfl
  . rw [readU16_eq (by omega), readU64_eq (by omega), readSide_eq (by omega), readU32_eq (by omega),
      readU32_eq (by omega)]
    exact emit_eq (by omega)

theorem parseD_eq (m : List UInt8) (seq : Nat) : parseD m seq = some (ItchParser.parseD m seq).toList := by
  unfold parseD ItchParser.parseD
  split
  . rfl
  . rw [readU16_eq (by omega), readU64_eq (by omega)]
    exact emit_eq (by omega)

theorem parseX_eq (m : List UInt8) (seq : Nat) : parseX m seq = some (ItchParser.parseX m seq).toList := by
  unfold parseX ItchParser.parseX
  split
  . rfl
  . rw [readU16_eq (by omega), readU64_eq (by omega), readU32_eq (by omega)]
    exact emit_eq (by omega)

theorem parseU_eq (m : List UInt8) (seq : Nat) : parseU m seq = some (ItchParser.parseU m seq).toList := by
  unfold parseU ItchParser.parseU
  split
  . rfl
  . rw [readU16_eq (by omega), readU64_eq (by omega), readU64_eq (by omega), readU32_eq (by omega),
      readU32_eq (by omega)]
    exact emit_eq (by omega)

theorem parseP_eq (m : List UInt8) (seq : Nat) : parseP m seq = some (ItchParser.parseP m seq).toList := by
  unfold parseP ItchParser.parseP
  split
  . rfl
  . rw [readU16_eq (by omega), readU64_eq (by omega), readU32_eq (by omega), readU32_eq (by omega),
      readSide_eq (by omega)]
    exact emit_eq (by omega)

theorem parseE_eq (m : List UInt8) (seq : Nat) : parseE m seq = some (ItchParser.parseE m seq).toList := by
  unfold parseE ItchParser.parseE
  split
  . rfl
  . rw [readU16_eq (by omega), readU64_eq (by omega), readU32_eq (by omega)]
    exact emit_eq (by omega)

theorem parseC_eq (m : List UInt8) (seq : Nat) : parseC m seq = some (ItchParser.parseC m seq).toList := by
  unfold parseC ItchParser.parseC
  split
  . rfl
  . rw [readU16_eq (by omega), readU64_eq (by omega), readU32_eq (by omega), readU32_eq (by omega)]
    exact emit_eq (by omega)

end

/--
The sizes of the protocol document. The handler of an `F` message does not wait for its attribution.
-/
def documentedSize (mt : Nat) : Option Nat :=
  match mt with
  | 65 => some 36
  | 70 => some 40
  | 68 => some 19
  | 88 => some 23
  | 85 => some 35
  | 80 => some 44
  | 69 => some 31
  | 67 => some 35
  | _ => none

def guardedSize (mt : Nat) : Option Nat := if mt = 70 then some 36 else documentedSize mt

def type (m : List UInt8) : Nat := (m.getD 0 0).toNat

/--
A call that treats its message rightly: it emits an event exactly for a complete message of a known type, one at most, and
its result says the same.
-/
structure Accepts (m : List UInt8) (fed : Fed) : Prop where
  single : fed.emitted.length ≤ 1
  returned : fed.returned = true ↔ fed.emitted ≠ []
  complete : fed.emitted ≠ [] ↔ 3 ≤ m.length ∧ ∃ size, documentedSize (type m) = some size ∧ size ≤ m.length

section

variable {m : List UInt8} {seq : Nat}

theorem feed_eq (m : List UInt8) (seq : Nat)
    : feed m seq = some ⟨decide (3 ≤ m.length ∧ (documentedSize (type m)).isSome), (ItchParser.feed m seq).toList⟩ := by
  unfold feed ItchParser.feed
  by_cases hlength : m.length < 3
  . have hshort : ¬ (3 ≤ m.length ∧ (documentedSize (type m)).isSome) := fun h => Nat.not_le.2 hlength h.1
    rw [if_pos hlength, if_pos hlength, decide_eq_false hshort]
    rfl
  . have hbyte : byte m 0 = some (type m) := by
      rw [CheckedRead.byte_eq (by omega)]
      unfold type
      rw [List.getD_eq_getElem?_getD, List.getElem?_eq_getElem (by omega), Option.getD_some]
    rw [if_neg hlength, if_neg hlength, hbyte]
    show (match type m with
      | 65 | 70 => handled (parseA m seq)
      | 68 => handled (parseD m seq)
      | 88 => handled (parseX m seq)
      | 85 => handled (parseU m seq)
      | 80 => handled (parseP m seq)
      | 69 => handled (parseE m seq)
      | 67 => handled (parseC m seq)
      | _ => some ⟨false, []⟩) = _
    rw [parseA_eq, parseD_eq, parseX_eq, parseU_eq, parseP_eq, parseE_eq, parseC_eq]
    have htype : (m.getD 0 0).toNat = type m := rfl
    have hlong : 3 ≤ m.length := Nat.not_lt.1 hlength
    rw [htype]
    generalize type m = mt
    unfold handled documentedSize
    split
    all_goals simp [hlong]

theorem feed_isSome
    : (ItchParser.feed m seq).isSome ↔ 3 ≤ m.length ∧ ∃ size, guardedSize (type m) = some size ∧ size ≤ m.length := by
  unfold ItchParser.feed
  by_cases hlength : m.length < 3
  . rw [if_pos hlength]
    constructor
    . intro h
      cases h
    . intro h
      omega
  . have htype : (m.getD 0 0).toNat = type m := rfl
    have hlong : 3 ≤ m.length := Nat.not_lt.1 hlength
    rw [if_neg hlength, htype]
    generalize type m = mt
    unfold guardedSize documentedSize ItchParser.parseA ItchParser.parseD ItchParser.parseX ItchParser.parseU
      ItchParser.parseP ItchParser.parseE ItchParser.parseC
    split
    all_goals simp [hlong]
    -- only the letter of no message is left
    intro hF
    exact absurd hF (by assumption)

theorem guardedSize_of_documented {mt size : Nat} (h : documentedSize mt = some size)
    : ∃ guard, guardedSize mt = some guard ∧ guard ≤ size := by
  unfold guardedSize
  by_cases hF : mt = 70
  . subst hF
    cases h
    exact ⟨36, rfl, by decide⟩
  . rw [if_neg hF]
    exact ⟨size, h, Nat.le_refl size⟩

theorem documented_of_guarded {mt guard : Nat} (h : guardedSize mt = some guard) : (documentedSize mt).isSome := by
  unfold guardedSize at h
  by_cases hF : mt = 70
  . rw [hF]
    rfl
  . rw [if_neg hF] at h
    rw [h]
    rfl

theorem length_toList_le {α : Type} (o : Option α) : o.toList.length ≤ 1 := by
  cases o with
  | none => exact Nat.zero_le 1
  | some x => exact Nat.le_refl 1

theorem toList_ne_nil {α : Type} (o : Option α) : o.toList ≠ [] ↔ o.isSome := by
  cases o with
  | none => simp
  | some x => simp

/--
The parser takes a message for a complete one of its type exactly if the length is not between 3 and the size of the
type.
-/
theorem accepts_iff (m : List UInt8) (seq : Nat)
    : (∃ fed, feed m seq = some fed ∧ Accepts m fed) ↔
        ∀ size, documentedSize (type m) = some size → 3 ≤ m.length → size ≤ m.length := by
  rw [feed_eq]
  constructor
  . rintro ⟨fed, hfed, h⟩ size hsize hlength
    cases hfed
    have hreturned : decide (3 ≤ m.length ∧ (documentedSize (type m)).isSome) = true := by
      rw [hsize]
      simpa using hlength
    obtain ⟨_, size', hsize', hle⟩ := h.complete.1 (h.returned.1 hreturned)
    rw [hsize] at hsize'
    cases hsize'
    exact hle
  . intro h
    refine ⟨_, rfl, ?_⟩
    have hemitted := (toList_ne_nil (ItchParser.feed m seq)).trans feed_isSome
    constructor
    . exact length_toList_le _
    . rw [hemitted, decide_eq_true_iff]
      constructor
      . rintro ⟨hlength, hknown⟩
        obtain ⟨size, hsize⟩ := Option.isSome_iff_exists.1 hknown
        obtain ⟨guard, hguard, hle⟩ := guardedSize_of_documented hsize
        exact ⟨hlength, guard, hguard, Nat.le_trans hle (h size hsize hlength)⟩
      . rintro ⟨hlength, guard, hguard, _⟩
        exact ⟨hlength, documented_of_guarded hguard⟩
    . rw [hemitted]
      constructor
      . rintro ⟨hlength, guard, hguard, _⟩
        obtain ⟨size, hsize⟩ := Option.isSome_iff_exists.1 (documented_of_guarded hguard)
        exact ⟨hlength, size, hsize, h size hsize hlength⟩
      . rintro ⟨hlength, size, hsize, hle⟩
        obtain ⟨guard, hguard, hle'⟩ := guardedSize_of_documented hsize
        exact ⟨hlength, guard, hguard, Nat.le_trans hle' hle⟩

/--
A `D` message of 3 bytes is taken for a handled one without an event, and an `F` message of 36 bytes gives an event
without its last 4 bytes.
-/
theorem not_accepts
    : feed [68, 0, 1] 7 = some ⟨true, []⟩ ∧ ¬ (∃ fed, feed [68, 0, 1] 7 = some fed ∧ Accepts [68, 0, 1] fed) ∧
      ¬ ∃ fed, feed (70 :: List.replicate 35 0) 7 = some fed ∧ Accepts (70 :: List.replicate 35 0) fed := by
  refine ⟨rfl, ?_, ?_⟩
  . rintro ⟨fed, hfed, h⟩
    cases hfed
    exact h.returned.1 rfl rfl
  . rintro ⟨fed, hfed, h⟩
    rw [feed_eq] at hfed
    cases hfed
    have hemitted : (ItchParser.feed (70 :: List.replicate 35 0) 7).toList ≠ [] := by decide
    obtain ⟨_, size, hsize, hle⟩ := h.complete.1 hemitted
    cases hsize
    revert hle
    decide

end

end ItchBounds

end NebulaXTrader
