import NebulaXTrader.Core.Types
import NebulaXTrader.Lib.Chain
import Mathlib.Data.Nat.Log

/-!
This module contains the model of `OrderMap`, the separate chaining hash table from order references
to order slots: a node pool with a tagged free list, one chain of nodes per bucket, and an overflow
map that takes over the buckets that were treeified. The operations are the ones of a single caller,
for whom every exchange succeeds and a bucket is never seen while it is being treeified.
-/

namespace NebulaXTrader

inductive BucketState where
  | chain
  | treeifying
  | treeified
  deriving DecidableEq, Repr

structure OrderMap.Node where
  orderRef : Nat
  order : Nat
  nextIdx : Nat
  bucket : Nat
  deriving DecidableEq, Repr

structure OrderMap where
  nodes : Nat → OrderMap.Node
  capacity : Nat
  buckets : Nat → Nat
  bucketLen : Nat → Nat
  state : Nat → BucketState
  freeHead : TaggedHead
  size : Nat
  overflow : Nat → Option Nat

namespace OrderMap

def TREEIFY_THRESHOLD : Nat := 8

/--
The number of buckets, cut to 32 bits: there are none if the capacity is above `2 ^ 31`.
-/
def roundPow2 (n : Nat) : Nat := 2 ^ Nat.clog 2 n % 2 ^ 32

def hashShift (m : OrderMap) : Nat := 64 - Nat.log2 (roundPow2 m.capacity)

def hash (m : OrderMap) (id : Nat) : Nat :=
  (((id * 0x9E3779B97F4A7C15) % 2 ^ 64) >>> m.hashShift) % 2 ^ 32

def init (capacity : Nat) : OrderMap where
  nodes i := {
    orderRef := 0
    order := 0
    nextIdx := if i + 1 < capacity then i + 1 else noIdx
    bucket := 0
  }
  capacity := capacity
  buckets _ := noIdx
  bucketLen _ := 0
  state _ := .chain
  freeHead := ⟨0, 0⟩
  size := 0
  overflow _ := none

def next (m : OrderMap) (i : Nat) : Nat := (m.nodes i).nextIdx

def chain (m : OrderMap) (b : Nat) : List Nat := Chain.walk m.next noIdx m.capacity (m.buckets b)

def takeNode (m : OrderMap) (head : Nat) : OrderMap :=
  { m with freeHead := m.freeHead.bump (m.next head) }

def allocNode (m : OrderMap) : Option (Nat × OrderMap) :=
  let head := m.freeHead.idx
  if head = noIdx then
    none
  else
    some (head, m.takeNode head)

def setNext (m : OrderMap) (idx next : Nat) : OrderMap :=
  { m with nodes := Function.update m.nodes idx { m.nodes idx with nextIdx := next } }

def freeNode (m : OrderMap) (idx : Nat) : OrderMap :=
  let head := m.freeHead.idx
  { m.setNext idx head with freeHead := m.freeHead.bump idx }

def treeify (m : OrderMap) (b : Nat) : OrderMap :=
  if m.state b = .chain then
    { m with
      overflow :=
        (m.chain b).foldl
          (fun ov i => Function.update ov (m.nodes i).orderRef (some (m.nodes i).order)) m.overflow
      state := Function.update m.state b .treeified }
  else
    m

def overflowInsert (m : OrderMap) (orderRef order : Nat) : OrderMap :=
  { m with overflow := Function.update m.overflow orderRef (some order), size := m.size + 1 }

def overflowErase (m : OrderMap) (orderRef : Nat) : OrderMap :=
  { m with overflow := Function.update m.overflow orderRef none, size := m.size - 1 }

def linkNode (m : OrderMap) (b idx orderRef order : Nat) : OrderMap :=
  { m with
    nodes :=
      Function.update m.nodes idx
        { orderRef := orderRef, order := order, nextIdx := m.buckets b, bucket := b }
    buckets := Function.update m.buckets b idx
    bucketLen := Function.update m.bucketLen b (m.bucketLen b + 1)
    size := m.size + 1 }

def insert (m : OrderMap) (orderRef order : Nat) : OrderMap :=
  let b := m.hash orderRef
  if m.state b ≠ .chain then
    m.overflowInsert orderRef order
  -- the second test compares the whole `(tag << 32) | idx` word with `UINT32_MAX`
  else if m.bucketLen b ≥ TREEIFY_THRESHOLD ∨ m.freeHead = ⟨0, noIdx⟩ then
    (m.treeify b).overflowInsert orderRef order
  else
    match m.allocNode with
    | none => m
    | some (idx, m) =>
      let m := m.linkNode b idx orderRef order
      if m.bucketLen b ≥ TREEIFY_THRESHOLD then m.treeify b else m

/--
The lock free walk of `find`. It starts again at the bucket head when it meets a node of another
bucket; the fuel bounds the number of nodes it looks at.
-/
def findLoop (m : OrderMap) (b orderRef : Nat) : Nat → Nat → Option Nat
  | 0, _ => none
  | fuel + 1, idx =>
    if idx = noIdx then
      none
    else if (m.nodes idx).bucket ≠ b then
      m.findLoop b orderRef fuel (m.buckets b)
    else if (m.nodes idx).orderRef = orderRef then
      some (m.nodes idx).order
    else
      m.findLoop b orderRef fuel (m.next idx)

def find (m : OrderMap) (orderRef : Nat) : Option Nat :=
  let b := m.hash orderRef
  if m.state b ≠ .chain then
    m.overflow orderRef
  else
    m.findLoop b orderRef (m.capacity + 1) (m.buckets b)

def dropCounts (m : OrderMap) (b : Nat) : OrderMap :=
  { m with
    bucketLen := Function.update m.bucketLen b (m.bucketLen b - 1)
    size := m.size - 1 }

def setBucket (m : OrderMap) (b idx : Nat) : OrderMap :=
  { m with buckets := Function.update m.buckets b idx }

def unlinkHead (m : OrderMap) (b idx : Nat) : OrderMap :=
  ((m.setBucket b (m.next idx)).freeNode idx).dropCounts b

def unlinkAfter (m : OrderMap) (b idx next : Nat) : OrderMap :=
  ((m.setNext idx (m.next next)).freeNode next).dropCounts b

/--
The lock free part of `erase`: `none` is the label `retry` that looks at the head of the bucket,
`some idx` is the walk with the predecessor `idx` under test.
-/
def eraseLoop (m : OrderMap) (b orderRef : Nat) : Nat → Option Nat → OrderMap
  | 0, _ => m
  | fuel + 1, none =>
    let idx := m.buckets b
    if idx = noIdx then
      m
    else if (m.nodes idx).orderRef = orderRef then
      m.unlinkHead b idx
    else
      m.eraseLoop b orderRef fuel (some idx)
  | fuel + 1, some idx =>
    if idx = noIdx then
      m
    else if (m.nodes idx).bucket ≠ b then
      m.eraseLoop b orderRef fuel none
    else
      let next := m.next idx
      if next = noIdx then
        m
      else if (m.nodes next).orderRef = orderRef then
        m.unlinkAfter b idx next
      else
        m.eraseLoop b orderRef fuel (some next)

def erase (m : OrderMap) (orderRef : Nat) : OrderMap :=
  let b := m.hash orderRef
  if m.state b ≠ .chain then
    if (m.overflow orderRef).isSome then m.overflowErase orderRef else m
  else
    m.eraseLoop b orderRef (m.capacity + 1) none

end OrderMap

end NebulaXTrader
