import Mathlib.Data.Finmap
import NebulaXTrader.Book.OrderMap
import NebulaXTrader.Lib.Run
import NebulaXTrader.Lib.Wrap

/-!
This module contains the model of an `OrderMap` that several threads use at once. Every load, store and
exchange of an atomic is a step of its own, and so is every section under `overflow_lock_`.
-/

namespace NebulaXTrader

namespace OrderMap

def modify (m : OrderMap) (idx : Nat) (f : Node → Node) : OrderMap :=
  { m with nodes := Function.update m.nodes idx (f (m.nodes idx)) }

def setFreeHead (m : OrderMap) (fh : TaggedHead) : OrderMap := { m with freeHead := fh }

def setState (m : OrderMap) (b : Nat) (state : BucketState) : OrderMap :=
  { m with state := Function.update m.state b state }

def setOverflow (m : OrderMap) (overflow : Nat → Option Nat) : OrderMap := { m with overflow := overflow }

def setLen (m : OrderMap) (b len : Nat) : OrderMap :=
  { m with bucketLen := Function.update m.bucketLen b len }

def setSize (m : OrderMap) (size : Nat) : OrderMap := { m with size := size }

/--
The loop of `treeify`. It has no result if the chain does not end.
-/
def copyChain (m : OrderMap) (fuel cur : Nat) (overflow : Nat → Option Nat) : Option (Nat → Option Nat) :=
  if cur = noIdx then
    some overflow
  else
    match fuel with
    | 0 => none
    | fuel + 1 =>
      m.copyChain fuel (m.next cur)
        (Function.update overflow (m.nodes cur).orderRef (some (m.nodes cur).order))

end OrderMap

namespace SharedMap

inductive FreePc where
  | load
  | storeNext (fh : TaggedHead)
  | push (fh : TaggedHead)
  deriving DecidableEq

/--
The tests of the loops belong to the loads before them. `fh` is the head that `allocNode` loaded, `since` the
number of exchanges that had succeeded at this moment, and `linked` tells which of its two calls `treeify` is.
-/
inductive InsertPc where
  | loadState
  | loadLen
  | loadFree
  | treeify (linked : Bool)
  | migrate (linked : Bool)
  | alloc
  | loadNext (fh : TaggedHead) (since : Nat)
  | takeHead (fh : TaggedHead) (since next : Nat)
  | storeRef (idx : Nat)
  | storeOrder (idx : Nat)
  | storeBucket (idx : Nat)
  | recheck (idx : Nat)
  | loadHead (idx : Nat)
  | storeNext (idx head : Nat)
  | link (idx head : Nat)
  | relink (idx head : Nat)
  | addLen
  | addSize
  | reloadLen
  | free (idx : Nat) (pc : FreePc)
  | locked
  deriving DecidableEq

inductive FindPc where
  | loadState
  | locked
  | loadHead
  | loadBucket (idx : Nat)
  | loadRef (idx : Nat)
  | loadOrder (idx : Nat)
  | loadNext (idx : Nat)
  | found (order : Option Nat)
  deriving DecidableEq

inductive ErasePc where
  | loadState
  | locked
  | loadHead
  | loadHeadRef (idx : Nat)
  | loadHeadNext (idx : Nat)
  | unlinkHead (idx nxt : Nat)
  | reloadHeadRef (idx : Nat)
  | loadBucket (idx : Nat)
  | loadNext (idx : Nat)
  | loadNextRef (idx next : Nat)
  | loadNextNext (idx next : Nat)
  | unlink (idx next nxt2 : Nat)
  | free (idx : Nat) (pc : FreePc)
  | subLen
  | subSize
  deriving DecidableEq

inductive Pc where
  | idle
  | insert (ref order : Nat) (pc : InsertPc)
  | find (ref : Nat) (pc : FindPc)
  | erase (ref : Nat) (pc : ErasePc)
  deriving DecidableEq

end SharedMap

/--
`exchanges` counts the successful exchanges of `free_head_`, and `live` holds the references from the begin of
their insert to the end of their erase. No thread reads these two.
-/
structure SharedMap (T : Type) where
  map : OrderMap
  threads : T → SharedMap.Pc
  exchanges : Nat
  live : Finmap (fun _ : Nat => Nat)

namespace SharedMap

variable {T : Type} [DecidableEq T]

inductive Label (T : Type) where
  | insert (t : T) (ref order : Nat)
  | find (t : T) (ref : Nat)
  | erase (t : T) (ref : Nat)
  | advance (t : T)
  /-- `compare_exchange_weak` fails although it finds the expected value. -/
  | spurious (t : T)
  deriving DecidableEq

def init (T : Type) (capacity : Nat) : SharedMap T where
  map := .init capacity
  threads _ := .idle
  exchanges := 0
  live := ∅

def setPc (s : SharedMap T) (t : T) (pc : Pc) : SharedMap T :=
  { s with threads := Function.update s.threads t pc }

def setMap (s : SharedMap T) (m : OrderMap) : SharedMap T := { s with map := m }

def exchange (s : SharedMap T) (idx : Nat) : SharedMap T :=
  { s with map := s.map.setFreeHead (s.map.freeHead.bump idx), exchanges := s.exchanges + 1 }

def addLive (s : SharedMap T) (ref order : Nat) : SharedMap T := { s with live := s.live.insert ref order }

def dropLive (s : SharedMap T) (ref : Nat) : SharedMap T := { s with live := s.live.erase ref }

def stepFree (s : SharedMap T) (t : T) (idx : Nat) (inside : FreePc → Pc) (after : Pc) (pc : FreePc)
    : SharedMap T :=
  match pc with
  | .load => s.setPc t (inside (.storeNext s.map.freeHead))
  | .storeNext fh => (s.setMap (s.map.setNext idx fh.idx)).setPc t (inside (.push fh))
  | .push fh =>
    if s.map.freeHead = fh then
      (s.exchange idx).setPc t after
    else
      s.setPc t (inside (.storeNext s.map.freeHead))

/--
The test of the loop in `allocNode`. An insert that finds no node returns.
-/
def testFree (s : SharedMap T) (t : T) (ref order : Nat) : SharedMap T :=
  if s.map.freeHead.idx = noIdx then
    s.setPc t .idle
  else
    s.setPc t (.insert ref order (.loadNext s.map.freeHead s.exchanges))

def afterTreeify (ref order : Nat) (linked : Bool) : Pc :=
  if linked then .idle else .insert ref order .locked

def stepInsert (s : SharedMap T) (t : T) (ref order : Nat) (pc : InsertPc) : Option (SharedMap T) :=
  let b := s.map.hash ref
  let goOn := fun (s : SharedMap T) (pc : InsertPc) => some (s.setPc t (.insert ref order pc))
  match pc with
  | .loadState => if s.map.state b ≠ .chain then goOn s .locked else goOn s .loadLen
  | .loadLen =>
    if s.map.bucketLen b ≥ OrderMap.TREEIFY_THRESHOLD then goOn s (.treeify false) else goOn s .loadFree
  -- the whole `(tag << 32) | idx` word is compared with `UINT32_MAX`
  | .loadFree => if s.map.freeHead = ⟨0, noIdx⟩ then goOn s (.treeify false) else goOn s .alloc
  | .treeify linked =>
    if s.map.state b = .chain then
      goOn (s.setMap (s.map.setState b .treeifying)) (.migrate linked)
    else
      some (s.setPc t (afterTreeify ref order linked))
  | .migrate linked =>
    match s.map.copyChain s.map.capacity (s.map.buckets b) s.map.overflow with
    | none => none
    | some overflow =>
      some ((s.setMap ((s.map.setOverflow overflow).setState b .treeified)).setPc t
        (afterTreeify ref order linked))
  | .alloc => some (s.testFree t ref order)
  | .loadNext fh since => goOn s (.takeHead fh since (s.map.next fh.idx))
  | .takeHead fh _ next =>
    if s.map.freeHead = fh then
      goOn (s.exchange next) (.storeRef fh.idx)
    else
      some (s.testFree t ref order)
  | .storeRef idx =>
    goOn (s.setMap (s.map.modify idx (fun node => { node with orderRef := ref }))) (.storeOrder idx)
  | .storeOrder idx =>
    goOn (s.setMap (s.map.modify idx (fun node => { node with order := order }))) (.storeBucket idx)
  | .storeBucket idx =>
    goOn (s.setMap (s.map.modify idx (fun node => { node with bucket := b }))) (.recheck idx)
  | .recheck idx => if s.map.state b ≠ .chain then goOn s (.free idx .load) else goOn s (.loadHead idx)
  | .loadHead idx => goOn s (.storeNext idx (s.map.buckets b))
  | .storeNext idx head => goOn (s.setMap (s.map.setNext idx head)) (.link idx head)
  | .link idx head =>
    if s.map.buckets b = head then
      goOn (s.setMap (s.map.setBucket b idx)) .addLen
    else
      goOn s (.relink idx (s.map.buckets b))
  | .relink idx head =>
    if s.map.state b ≠ .chain then goOn s (.free idx .load) else goOn s (.storeNext idx head)
  | .addLen =>
    goOn (s.setMap (s.map.setLen b (Wrap.add (2 ^ 16) (s.map.bucketLen b) 1))) .addSize
  | .addSize => goOn (s.setMap (s.map.setSize (Wrap.add (2 ^ 64) s.map.size 1))) .reloadLen
  | .reloadLen =>
    if s.map.bucketLen b ≥ OrderMap.TREEIFY_THRESHOLD then
      goOn s (.treeify true)
    else
      some (s.setPc t .idle)
  | .free idx pc =>
    some (s.stepFree t idx (fun pc => .insert ref order (.free idx pc)) (.insert ref order .locked) pc)
  | .locked =>
    let m := s.map.setOverflow (Function.update s.map.overflow ref (some order))
    some ((s.setMap (m.setSize (Wrap.add (2 ^ 64) m.size 1))).setPc t .idle)

def stepFind (s : SharedMap T) (t : T) (ref : Nat) (pc : FindPc) : Option (SharedMap T) :=
  let b := s.map.hash ref
  let goOn := fun (pc : FindPc) => some (s.setPc t (.find ref pc))
  match pc with
  | .loadState => if s.map.state b ≠ .chain then goOn .locked else goOn .loadHead
  | .locked => goOn (.found (s.map.overflow ref))
  | .loadHead =>
    if s.map.buckets b = noIdx then goOn (.found none) else goOn (.loadBucket (s.map.buckets b))
  | .loadBucket idx => if (s.map.nodes idx).bucket ≠ b then goOn .loadHead else goOn (.loadRef idx)
  | .loadRef idx =>
    if (s.map.nodes idx).orderRef = ref then goOn (.loadOrder idx) else goOn (.loadNext idx)
  | .loadOrder idx => goOn (.found (some (s.map.nodes idx).order))
  | .loadNext idx =>
    if s.map.next idx = noIdx then goOn (.found none) else goOn (.loadBucket (s.map.next idx))
  | .found _ => some (s.setPc t .idle)

def stepErase (s : SharedMap T) (t : T) (ref : Nat) (pc : ErasePc) : Option (SharedMap T) :=
  let b := s.map.hash ref
  let goOn := fun (s : SharedMap T) (pc : ErasePc) => some (s.setPc t (.erase ref pc))
  let finish := fun (s : SharedMap T) => some ((s.dropLive ref).setPc t .idle)
  match pc with
  | .loadState => if s.map.state b ≠ .chain then goOn s .locked else goOn s .loadHead
  | .locked =>
    if (s.map.overflow ref).isSome then
      let m := s.map.setOverflow (Function.update s.map.overflow ref none)
      finish (s.setMap (m.setSize (Wrap.sub (2 ^ 64) m.size 1)))
    else
      finish s
  | .loadHead =>
    if s.map.buckets b = noIdx then finish s else goOn s (.loadHeadRef (s.map.buckets b))
  | .loadHeadRef idx =>
    if (s.map.nodes idx).orderRef = ref then goOn s (.loadHeadNext idx) else goOn s (.loadBucket idx)
  | .loadHeadNext idx => goOn s (.unlinkHead idx (s.map.next idx))
  | .unlinkHead idx nxt =>
    if s.map.buckets b = idx then
      goOn (s.setMap (s.map.setBucket b nxt)) (.free idx .load)
    else
      goOn s (.reloadHeadRef (s.map.buckets b))
  | .reloadHeadRef idx =>
    if (s.map.nodes idx).orderRef ≠ ref then goOn s .loadHead else goOn s (.loadHeadNext idx)
  | .loadBucket idx => if (s.map.nodes idx).bucket ≠ b then goOn s .loadHead else goOn s (.loadNext idx)
  | .loadNext idx =>
    if s.map.next idx = noIdx then finish s else goOn s (.loadNextRef idx (s.map.next idx))
  | .loadNextRef idx next =>
    if (s.map.nodes next).orderRef = ref then
      goOn s (.loadNextNext idx next)
    else
      goOn s (.loadBucket next)
  | .loadNextNext idx next => goOn s (.unlink idx next (s.map.next next))
  | .unlink idx next nxt2 =>
    if s.map.next idx = next then
      goOn (s.setMap (s.map.setNext idx nxt2)) (.free next .load)
    else
      goOn s .loadHead
  | .free idx pc => some (s.stepFree t idx (fun pc => .erase ref (.free idx pc)) (.erase ref .subLen) pc)
  | .subLen => goOn (s.setMap (s.map.setLen b (Wrap.sub (2 ^ 16) (s.map.bucketLen b) 1))) .subSize
  | .subSize => finish (s.setMap (s.map.setSize (Wrap.sub (2 ^ 64) s.map.size 1)))

def advance (s : SharedMap T) (t : T) : Option (SharedMap T) :=
  match s.threads t with
  | .idle => none
  | .insert ref order pc => s.stepInsert t ref order pc
  | .find ref pc => s.stepFind t ref pc
  | .erase ref pc => s.stepErase t ref pc

def spurious (s : SharedMap T) (t : T) : Option (SharedMap T) :=
  match s.threads t with
  | .insert ref order (.takeHead _ _ _) => some (s.testFree t ref order)
  | .insert ref order (.link idx _) =>
    some (s.setPc t (.insert ref order (.relink idx (s.map.buckets (s.map.hash ref)))))
  | .insert ref order (.free idx (.push _)) =>
    some (s.setPc t (.insert ref order (.free idx (.storeNext s.map.freeHead))))
  | .erase ref (.unlinkHead _ _) =>
    some (s.setPc t (.erase ref (.reloadHeadRef (s.map.buckets (s.map.hash ref)))))
  | .erase ref (.unlink _ _ _) => some (s.setPc t (.erase ref .loadHead))
  | .erase ref (.free idx (.push _)) =>
    some (s.setPc t (.erase ref (.free idx (.storeNext s.map.freeHead))))
  | _ => none

def step (owner : Nat → T) (s : SharedMap T) (l : Label T) : Option (SharedMap T) :=
  match l with
  | .insert t ref order =>
    if s.threads t = .idle ∧ owner ref = t ∧ s.live.lookup ref = none ∧
        s.live.keys.card < s.map.capacity then
      some ((s.addLive ref order).setPc t (.insert ref order .loadState))
    else
      none
  | .find t ref =>
    if s.threads t = .idle ∧ owner ref = t then some (s.setPc t (.find ref .loadState)) else none
  | .erase t ref =>
    if s.threads t = .idle ∧ owner ref = t then some (s.setPc t (.erase ref .loadState)) else none
  | .advance t => s.advance t
  | .spurious t => s.spurious t

/--
`allocNode` may find the free list empty only while no node is on the chain of a treeified bucket.
-/
def Room (s : SharedMap T) : Prop :=
  s.map.freeHead.idx = noIdx → ∀ i < s.map.capacity, s.map.state (s.map.nodes i).bucket ≠ .treeified

/--
The condition on a step of `insert`: a node is linked to a chain only while the chain is not copied, and fewer
than `2 ^ 32` exchanges lie between a load of `free_head_` and the exchange that expects its value.
-/
def InsertPc.Careful (pc : InsertPc) (s : SharedMap T) (ref : Nat) : Prop :=
  match pc with
  | .alloc => s.Room
  | .takeHead fh since _ => s.Room ∧ (s.map.freeHead = fh → s.exchanges < since + 2 ^ 32)
  | .link _ head =>
    s.map.buckets (s.map.hash ref) = head → s.map.state (s.map.hash ref) ≠ .treeified
  | _ => True

/--
The reference is not on a chain that is still to be copied to `overflow_`.
-/
def Moved (s : SharedMap T) (ref : Nat) : Prop :=
  s.map.state (s.map.hash ref) = .treeified ∨
    ∀ i ∈ s.map.chain (s.map.hash ref), (s.map.nodes i).orderRef ≠ ref

/--
The node stores the reference only if it is still on the chain that the thread walks along.
-/
def Genuine (s : SharedMap T) (ref idx : Nat) : Prop :=
  (s.map.nodes idx).orderRef = ref → idx ∈ s.map.chain (s.map.hash ref)

/--
The condition on a step of `find`: it goes on from no node that has left the chain meanwhile.
-/
def FindPc.Careful (pc : FindPc) (s : SharedMap T) (ref : Nat) : Prop :=
  match pc with
  | .locked => s.Moved ref
  | .loadRef idx => s.Genuine ref idx
  | .loadNext idx => idx ∈ s.map.chain (s.map.hash ref)
  | _ => True

/--
The condition on a step of `erase`: as for `find`, and an exchange takes a node off its chain only while the
chain is not copied, its predecessor is on the chain and the link of the node is the one that was loaded.
-/
def ErasePc.Careful (pc : ErasePc) (s : SharedMap T) (ref : Nat) : Prop :=
  match pc with
  | .locked => s.Moved ref
  | .loadHeadRef idx => s.Genuine ref idx
  | .reloadHeadRef idx => s.Genuine ref idx
  | .unlinkHead idx nxt =>
    s.map.buckets (s.map.hash ref) = idx →
      s.map.state (s.map.hash ref) ≠ .treeified ∧ nxt = s.map.next idx
  | .loadNext idx => idx ∈ s.map.chain (s.map.hash ref)
  | .loadNextRef _ next => s.Genuine ref next
  | .unlink idx next nxt2 =>
    s.map.next idx = next →
      s.map.state (s.map.hash ref) ≠ .treeified ∧ idx ∈ s.map.chain (s.map.hash ref) ∧
        nxt2 = s.map.next next
  | _ => True

def Careful (s : SharedMap T) (l : Label T) : Prop :=
  match l with
  | .advance t =>
    match s.threads t with
    | .idle => True
    | .insert ref _ pc => pc.Careful s ref
    | .find ref pc => pc.Careful s ref
    | .erase ref pc => pc.Careful s ref
  | .spurious t =>
    match s.threads t with
    | .insert _ _ (.takeHead _ _ _) => s.Room
    | _ => True
  | _ => True

end SharedMap

end NebulaXTrader
