import NebulaXTrader.Book.Lemmas.OrderMap
import NebulaXTrader.Book.SharedMap

/-!
This module contains the invariant of the shared map, what a thread knows in the middle of a call, and which
steps of the other threads this knowledge outlives.
-/

namespace NebulaXTrader

namespace OrderMap

variable (m : OrderMap)

@[simp]
theorem setOverflow_capacity (overflow : Nat → Option Nat) : (m.setOverflow overflow).capacity = m.capacity := rfl

@[simp]
theorem setSize_capacity (size : Nat) : (m.setSize size).capacity = m.capacity := rfl

end OrderMap

namespace SharedMap

/--
Where a node is: on the free list, on the chain of a bucket, or between the two in the hands of a thread.
-/
inductive Place (T : Type) where
  | free
  | chain (b : Nat)
  | thread (t : T)

variable {T : Type}

section Memory

variable {m m' : OrderMap} {fl : List Nat} {ch ch' : Nat → List Nat} {ref idx : Nat} {o : Option Nat}

structure Layout (m : OrderMap) (fl : List Nat) (ch : Nat → List Nat) : Prop where
  cap : m.capacity ≤ noIdx
  free : Chain.IsList m.next noIdx m.freeHead.idx fl
  chains : ∀ b, Chain.IsList m.next noIdx (m.buckets b) (ch b)
  bucket : ∀ b, ∀ i ∈ ch b, (m.nodes i).bucket = b
  hashed : ∀ b, ∀ i ∈ ch b, m.hash (m.nodes i).orderRef = b
  distinct : ∀ b, ∀ i ∈ ch b, ∀ j ∈ ch b, (m.nodes i).orderRef = (m.nodes j).orderRef → i = j

def Has (m : OrderMap) (ch : Nat → List Nat) (ref i : Nat) : Prop :=
  i ∈ ch (m.hash ref) ∧ (m.nodes i).orderRef = ref

def Passed (m : OrderMap) (ch : Nat → List Nat) (ref idx : Nat) : Prop :=
  Chain.Passed (fun i => (m.nodes i).orderRef = ref) (ch (m.hash ref)) idx

def Chained (m : OrderMap) (ch : Nat → List Nat) (ref : Nat) (o : Option Nat) : Prop :=
  match o with
  | none => ∀ i, ¬ Has m ch ref i
  | some order => ∃ i, Has m ch ref i ∧ (m.nodes i).order = order

/--
The reference is stored on its chain or in `overflow_`. An insert may use `overflow_` before the chain is copied.
-/
def Stored (m : OrderMap) (ch : Nat → List Nat) (ref : Nat) (o : Option Nat) : Prop :=
  (m.state (m.hash ref) ≠ .treeified ∧ m.overflow ref = none ∧ Chained m ch ref o) ∨
    (m.state (m.hash ref) ≠ .chain ∧ m.overflow ref = o ∧
      (m.state (m.hash ref) ≠ .treeified → Chained m ch ref none))

theorem Chained.eq_none (hchained : Chained m ch ref o) (hnone : Chained m ch ref none) : o = none := by
  cases o with
  | none => rfl
  | some order =>
    cases hchained with
    | intro i hi => exact absurd hi.1 (hnone i)

theorem Stored.chained (h : Stored m ch ref o) (hstate : m.state (m.hash ref) = .chain)
    : Chained m ch ref o := by
  cases h with
  | inl h => exact h.2.2
  | inr h => exact absurd hstate h.1

theorem Stored.moved_of_none (h : Stored m ch ref none)
    : m.state (m.hash ref) = .treeified ∨ Chained m ch ref none := by
  by_cases hstate : m.state (m.hash ref) = .treeified
  . exact Or.inl hstate
  . cases h with
    | inl hs => exact Or.inr hs.2.2
    | inr hs => exact Or.inr (hs.2.2 hstate)

theorem Stored.overflow (h : Stored m ch ref o)
    (hmoved : m.state (m.hash ref) = .treeified ∨ Chained m ch ref none) : m.overflow ref = o := by
  cases h with
  | inl h =>
    rw [h.2.2.eq_none (hmoved.resolve_left h.1)]
    exact h.2.1
  | inr h => exact h.2.1

theorem Layout.chained_eq (h : Layout m fl ch) (hchained : Chained m ch ref o) {i : Nat}
    (hi : Has m ch ref i) : o = some (m.nodes i).order := by
  cases o with
  | none => exact absurd hi (hchained i)
  | some order =>
    cases hchained with
    | intro j hj =>
      have heq : i = j := h.distinct _ i hi.1 j hj.1.1 (hi.2.trans hj.1.2.symm)
      rw [heq, hj.2]

theorem Layout.chain_eq (h : Layout m fl ch) {b : Nat} (hlt : ∀ i ∈ ch b, i < m.capacity)
    : m.chain b = ch b :=
  (h.chains b).walk_eq (Chain.length_le_of_nodup_of_lt (h.chains b).nodup hlt)

theorem Layout.chained_none_of_nil (h : Layout m fl ch) (hnil : m.buckets (m.hash ref) = noIdx)
    : Chained m ch ref none := by
  intro i hi
  have hlist := h.chains (m.hash ref)
  rw [hnil] at hlist
  have hmem := hi.1
  rw [hlist.eq_nil] at hmem
  cases hmem

structure Keeps (m m' : OrderMap) (ch ch' : Nat → List Nat) (ref : Nat) : Prop where
  hash : m'.hash ref = m.hash ref
  has : ∀ i, Has m' ch' ref i ↔ Has m ch ref i
  order : ∀ i, Has m ch ref i → (m'.nodes i).order = (m.nodes i).order
  passed : ∀ i, Passed m ch ref i → Passed m' ch' ref i
  other : ∀ i, (m.nodes i).orderRef ≠ ref → (m'.nodes i).orderRef ≠ ref
  chain : m.state (m.hash ref) ≠ .chain → m'.state (m.hash ref) ≠ .chain

theorem Keeps.refl (m : OrderMap) (ch : Nat → List Nat) (ref : Nat) : Keeps m m ch ch ref :=
  ⟨rfl, fun _ => Iff.rfl, fun _ _ => rfl, fun _ h => h, fun _ h => h, fun h => h⟩

theorem Keeps.chained (h : Keeps m m' ch ch' ref) (hchained : Chained m ch ref o)
    : Chained m' ch' ref o := by
  cases o with
  | none =>
    intro i hi
    exact hchained i ((h.has i).1 hi)
  | some order =>
    cases hchained with
    | intro i hi =>
      refine ⟨i, (h.has i).2 hi.1, ?_⟩
      rw [h.order i hi.1]
      exact hi.2

theorem Stored.of_chained (hstored : Stored m ch ref o) (hhash : m'.hash ref = m.hash ref)
    (hchained : ∀ o, Chained m ch ref o → Chained m' ch' ref o)
    (hoverflow : m'.overflow ref = m.overflow ref)
    (htreeified : m'.state (m.hash ref) = .treeified ↔ m.state (m.hash ref) = .treeified)
    (hchain : m.state (m.hash ref) ≠ .chain → m'.state (m.hash ref) ≠ .chain)
    : Stored m' ch' ref o := by
  unfold Stored at hstored ⊢
  rw [hhash, hoverflow]
  cases hstored with
  | inl hs =>
    apply Or.inl
    refine ⟨?_, hs.2.1, hchained o hs.2.2⟩
    rw [ne_eq, htreeified]
    exact hs.1
  | inr hs =>
    apply Or.inr
    refine ⟨hchain hs.1, hs.2.1, ?_⟩
    rw [ne_eq, htreeified]
    intro hne
    exact hchained none (hs.2.2 hne)

theorem Keeps.stored (h : Keeps m m' ch ch' ref) (hoverflow : m'.overflow ref = m.overflow ref)
    (htreeified : m'.state (m.hash ref) = .treeified ↔ m.state (m.hash ref) = .treeified)
    (hstored : Stored m ch ref o) : Stored m' ch' ref o :=
  hstored.of_chained h.hash (fun _ => h.chained) hoverflow htreeified h.chain

theorem Chained.of_nodes (hchained : Chained m ch ref o) (hhash : m'.hash ref = m.hash ref)
    (hnodes : ∀ i ∈ ch (m.hash ref), m'.nodes i = m.nodes i) : Chained m' ch ref o := by
  cases o with
  | none =>
    intro i hi
    unfold Has at hi
    rw [hhash] at hi
    rw [hnodes i hi.1] at hi
    exact hchained i hi
  | some order =>
    cases hchained with
    | intro i hi =>
      refine ⟨i, ?_, ?_⟩
      . unfold Has
        rw [hhash, hnodes i hi.1.1]
        exact hi.1
      . rw [hnodes i hi.1.1]
        exact hi.2

theorem Stored.of_nodes (hstored : Stored m ch ref o) (hcap : m'.capacity = m.capacity)
    (hnodes : m'.nodes = m.nodes) (hstate : m'.state = m.state)
    (hoverflow : m'.overflow ref = m.overflow ref) : Stored m' ch ref o := by
  have hhash : m'.hash ref = m.hash ref := congrFun (OrderMap.hash_congr hcap) ref
  apply hstored.of_chained hhash _ hoverflow
  . rw [hstate]
  . rw [hstate]
    exact id
  . intro o hchained
    exact hchained.of_nodes hhash (fun i _ => congrFun hnodes i)

theorem Stored.of_overflow (hcap : m'.capacity = m.capacity) (hnodes : m'.nodes = m.nodes)
    (hstate : m'.state = m.state) (hoverflow : m'.overflow ref = o)
    (hclosed : m.state (m.hash ref) ≠ .chain)
    (hmoved : m.state (m.hash ref) = .treeified ∨ Chained m ch ref none) : Stored m' ch ref o := by
  have hhash : m'.hash ref = m.hash ref := congrFun (OrderMap.hash_congr hcap) ref
  apply Or.inr
  rw [hhash, hstate]
  refine ⟨hclosed, hoverflow, ?_⟩
  intro hne
  exact (hmoved.resolve_left hne).of_nodes hhash (fun i _ => congrFun hnodes i)

end Memory

structure Known (s : SharedMap T) (fh : TaggedHead) (since : Nat) : Prop where
  ne : fh.idx ≠ noIdx
  le : since ≤ s.exchanges
  tag : fh.tag = since % 2 ^ 32
  head : since = s.exchanges → fh = s.map.freeHead

structure Written (m : OrderMap) (ref order idx : Nat) : Prop where
  orderRef : (m.nodes idx).orderRef = ref
  order : (m.nodes idx).order = order
  bucket : (m.nodes idx).bucket = m.hash ref

def FreePc.Knows (pc : FreePc) (m : OrderMap) (idx : Nat) : Prop :=
  match pc with
  | .push fh => m.next idx = fh.idx
  | _ => True

def InsertPc.Knows (pc : InsertPc) (s : SharedMap T) (ref order : Nat) : Prop :=
  match pc with
  | .migrate _ => s.map.state (s.map.hash ref) = .treeifying
  | .loadNext fh since => Known s fh since
  | .takeHead fh since next => Known s fh since ∧ (since = s.exchanges → next = s.map.next fh.idx)
  | .storeOrder idx => (s.map.nodes idx).orderRef = ref
  | .storeBucket idx => (s.map.nodes idx).orderRef = ref ∧ (s.map.nodes idx).order = order
  | .recheck idx => Written s.map ref order idx
  | .loadHead idx => Written s.map ref order idx
  | .storeNext idx _ => Written s.map ref order idx
  | .link idx head => Written s.map ref order idx ∧ s.map.next idx = head
  | .relink idx _ => Written s.map ref order idx
  | .free idx pc => s.map.state (s.map.hash ref) ≠ .chain ∧ pc.Knows s.map idx
  | .locked => s.map.state (s.map.hash ref) ≠ .chain
  | _ => True

def FindPc.Knows (pc : FindPc) (s : SharedMap T) (ch : Nat → List Nat) (ref : Nat) : Prop :=
  match pc with
  | .loadState => True
  | .locked => s.map.state (s.map.hash ref) ≠ .chain
  | .loadHead => Chained s.map ch ref (s.live.lookup ref)
  | .loadBucket idx => Chained s.map ch ref (s.live.lookup ref) ∧ Passed s.map ch ref idx
  | .loadRef idx => Chained s.map ch ref (s.live.lookup ref) ∧ Passed s.map ch ref idx
  | .loadOrder idx => Chained s.map ch ref (s.live.lookup ref) ∧ Has s.map ch ref idx
  | .loadNext idx =>
    Chained s.map ch ref (s.live.lookup ref) ∧ Passed s.map ch ref idx ∧ (s.map.nodes idx).orderRef ≠ ref
  | .found order => order = s.live.lookup ref

def ErasePc.Knows (pc : ErasePc) (s : SharedMap T) (ch : Nat → List Nat) (ref : Nat) : Prop :=
  match pc with
  | .loadState => True
  | .locked => s.map.state (s.map.hash ref) ≠ .chain
  | .loadHead => Chained s.map ch ref (s.live.lookup ref)
  | .loadHeadRef idx => Chained s.map ch ref (s.live.lookup ref) ∧ Passed s.map ch ref idx
  | .loadHeadNext idx => Chained s.map ch ref (s.live.lookup ref) ∧ Has s.map ch ref idx
  | .unlinkHead idx _ => Chained s.map ch ref (s.live.lookup ref) ∧ Has s.map ch ref idx
  | .reloadHeadRef _ => Chained s.map ch ref (s.live.lookup ref)
  | .loadBucket idx =>
    Chained s.map ch ref (s.live.lookup ref) ∧ Passed s.map ch ref idx ∧ (s.map.nodes idx).orderRef ≠ ref
  | .loadNext idx =>
    Chained s.map ch ref (s.live.lookup ref) ∧ Passed s.map ch ref idx ∧ (s.map.nodes idx).orderRef ≠ ref
  | .loadNextRef _ next => Chained s.map ch ref (s.live.lookup ref) ∧ Passed s.map ch ref next
  | .loadNextNext _ next => Chained s.map ch ref (s.live.lookup ref) ∧ Has s.map ch ref next
  | .unlink _ next _ => Chained s.map ch ref (s.live.lookup ref) ∧ Has s.map ch ref next
  | .free idx pc => s.live.lookup ref ≠ none ∧ pc.Knows s.map idx
  | .subLen => s.live.lookup ref ≠ none
  | .subSize => s.live.lookup ref ≠ none

def Pc.Knows (pc : Pc) (s : SharedMap T) (ch : Nat → List Nat) : Prop :=
  match pc with
  | .idle => True
  | .insert ref order pc => s.live.lookup ref = some order ∧ pc.Knows s ref order
  | .find ref pc => pc.Knows s ch ref
  | .erase ref pc => pc.Knows s ch ref

/--
What the others see of a thread in the middle of a call: the node in its hands, whether its reference is not
stored although it is live, how far `size_` is behind, and whether it is about to copy a chain.
-/
structure Role where
  slot : Option Nat := none
  hidden : Bool := false
  pending : Nat := 0
  migrating : Bool := false

def InsertPc.role (pc : InsertPc) : Role :=
  match pc with
  | .treeify linked => { hidden := !linked, pending := if linked then 0 else 1 }
  | .migrate linked => { hidden := !linked, pending := if linked then 0 else 1, migrating := true }
  | .storeRef idx => { slot := some idx, hidden := true, pending := 1 }
  | .storeOrder idx => { slot := some idx, hidden := true, pending := 1 }
  | .storeBucket idx => { slot := some idx, hidden := true, pending := 1 }
  | .recheck idx => { slot := some idx, hidden := true, pending := 1 }
  | .loadHead idx => { slot := some idx, hidden := true, pending := 1 }
  | .storeNext idx _ => { slot := some idx, hidden := true, pending := 1 }
  | .link idx _ => { slot := some idx, hidden := true, pending := 1 }
  | .relink idx _ => { slot := some idx, hidden := true, pending := 1 }
  | .free idx _ => { slot := some idx, hidden := true, pending := 1 }
  | .addLen => { pending := 1 }
  | .addSize => { pending := 1 }
  | .reloadLen => {}
  | _ => { hidden := true, pending := 1 }

def ErasePc.role (pc : ErasePc) : Role :=
  match pc with
  | .free idx _ => { slot := some idx, hidden := true }
  | .subLen => { hidden := true }
  | .subSize => { hidden := true }
  | _ => {}

def Pc.role (pc : Pc) : Role :=
  match pc with
  | .idle => {}
  | .insert _ _ pc => pc.role
  | .find _ _ => {}
  | .erase _ pc => pc.role

def Pc.key (pc : Pc) : Option Nat :=
  match pc with
  | .idle => none
  | .insert ref _ _ => some ref
  | .find ref _ => some ref
  | .erase ref _ => some ref

def Pc.Hides (pc : Pc) (ref : Nat) : Prop := pc.key = some ref ∧ pc.role.hidden = true

instance (pc : Pc) (ref : Nat) : Decidable (pc.Hides ref) := by
  unfold Pc.Hides
  infer_instance

def Pc.Migrates (pc : Pc) (ref : Nat) : Prop := pc.key = some ref ∧ pc.role.migrating = true

def view (owner : Nat → T) (s : SharedMap T) (ref : Nat) : Option Nat :=
  if (s.threads (owner ref)).Hides ref then none else s.live.lookup ref

/-!
The steps of the other threads.
-/

/--
The head that a thread loaded is still the head, or an exchange has succeeded.
-/
def Trusts (s s' : SharedMap T) : Prop :=
  (s'.exchanges = s.exchanges ∧ s'.map.freeHead = s.map.freeHead ∧
    (s.map.freeHead.idx ≠ noIdx → s'.map.next s.map.freeHead.idx = s.map.next s.map.freeHead.idx)) ∨
  s.exchanges < s'.exchanges

variable {s s' : SharedMap T} {ch ch' : Nat → List Nat} {ref order idx : Nat}

theorem Known.frame {fh : TaggedHead} {since : Nat} (h : Known s fh since) (htrusts : Trusts s s')
    : Known s' fh since := by
  have hle := h.le
  cases htrusts with
  | inl ht =>
    refine ⟨h.ne, by omega, h.tag, ?_⟩
    rw [ht.1, ht.2.1]
    exact h.head
  | inr hlt =>
    refine ⟨h.ne, by omega, h.tag, ?_⟩
    intro heq
    omega

theorem Written.frame {m m' : OrderMap} (h : Written m ref order idx) (hnodes : m'.nodes idx = m.nodes idx)
    (hhash : m'.hash ref = m.hash ref) : Written m' ref order idx := by
  constructor
  . rw [hnodes]
    exact h.orderRef
  . rw [hnodes]
    exact h.order
  . rw [hnodes, hhash]
    exact h.bucket

theorem FreePc.Knows.frame {pc : FreePc} {m m' : OrderMap} (h : pc.Knows m idx)
    (hnodes : m'.nodes idx = m.nodes idx) : pc.Knows m' idx := by
  cases pc with
  | push fh =>
    unfold FreePc.Knows OrderMap.next
    rw [hnodes]
    exact h
  | _ => trivial

theorem InsertPc.Knows.frame {pc : InsertPc} (h : pc.Knows s ref order)
    (hkeeps : Keeps s.map s'.map ch ch' ref)
    (hslot : ∀ i, pc.role.slot = some i → s'.map.nodes i = s.map.nodes i) (htrusts : Trusts s s')
    (hmigrating : pc.role.migrating = true → s.map.state (s.map.hash ref) = .treeifying →
      s'.map.state (s.map.hash ref) = .treeifying)
    : pc.Knows s' ref order := by
  cases pc with
  | migrate linked =>
    dsimp only [InsertPc.Knows] at h ⊢
    rw [hkeeps.hash]
    exact hmigrating rfl h
  | loadNext fh since => exact Known.frame h htrusts
  | takeHead fh since next =>
    refine ⟨h.1.frame htrusts, ?_⟩
    intro hsince
    have hle := h.1.le
    cases htrusts with
    | inl ht =>
      rw [ht.1] at hsince
      have hhead := h.1.head hsince
      have hne := h.1.ne
      rw [hhead] at hne
      rw [h.2 hsince, hhead, ht.2.2 hne]
    | inr hlt => omega
  | storeOrder idx =>
    dsimp only [InsertPc.Knows] at h ⊢
    rw [hslot idx rfl]
    exact h
  | storeBucket idx =>
    dsimp only [InsertPc.Knows] at h ⊢
    rw [hslot idx rfl]
    exact h
  | recheck idx => exact Written.frame h (hslot idx rfl) hkeeps.hash
  | loadHead idx => exact Written.frame h (hslot idx rfl) hkeeps.hash
  | storeNext idx head => exact Written.frame h (hslot idx rfl) hkeeps.hash
  | relink idx head => exact Written.frame h (hslot idx rfl) hkeeps.hash
  | link idx head =>
    refine ⟨h.1.frame (hslot idx rfl) hkeeps.hash, ?_⟩
    unfold OrderMap.next
    rw [hslot idx rfl]
    exact h.2
  | free idx pc =>
    refine ⟨?_, h.2.frame (hslot idx rfl)⟩
    rw [hkeeps.hash]
    exact hkeeps.chain h.1
  | locked =>
    dsimp only [InsertPc.Knows] at h ⊢
    rw [hkeeps.hash]
    exact hkeeps.chain h
  | _ => trivial

theorem Keeps.chained_live (hkeeps : Keeps s.map s'.map ch ch' ref)
    (hlive : s'.live.lookup ref = s.live.lookup ref) (h : Chained s.map ch ref (s.live.lookup ref))
    : Chained s'.map ch' ref (s'.live.lookup ref) := by
  rw [hlive]
  exact hkeeps.chained h

theorem FindPc.Knows.frame {pc : FindPc} (h : pc.Knows s ch ref) (hkeeps : Keeps s.map s'.map ch ch' ref)
    (hlive : s'.live.lookup ref = s.live.lookup ref) : pc.Knows s' ch' ref := by
  have hchained := hkeeps.chained_live hlive
  cases pc with
  | loadState => trivial
  | locked =>
    dsimp only [FindPc.Knows] at h ⊢
    rw [hkeeps.hash]
    exact hkeeps.chain h
  | loadHead => exact hchained h
  | loadBucket idx => exact ⟨hchained h.1, hkeeps.passed idx h.2⟩
  | loadRef idx => exact ⟨hchained h.1, hkeeps.passed idx h.2⟩
  | loadOrder idx => exact ⟨hchained h.1, (hkeeps.has idx).2 h.2⟩
  | loadNext idx => exact ⟨hchained h.1, hkeeps.passed idx h.2.1, hkeeps.other idx h.2.2⟩
  | found order => exact Eq.trans h hlive.symm

theorem ErasePc.Knows.frame {pc : ErasePc} (h : pc.Knows s ch ref)
    (hkeeps : Keeps s.map s'.map ch ch' ref) (hlive : s'.live.lookup ref = s.live.lookup ref)
    (hslot : ∀ i, pc.role.slot = some i → s'.map.nodes i = s.map.nodes i) : pc.Knows s' ch' ref := by
  have hchained := hkeeps.chained_live hlive
  cases pc with
  | loadState => trivial
  | locked =>
    dsimp only [ErasePc.Knows] at h ⊢
    rw [hkeeps.hash]
    exact hkeeps.chain h
  | loadHead => exact hchained h
  | loadHeadRef idx => exact ⟨hchained h.1, hkeeps.passed idx h.2⟩
  | loadHeadNext idx => exact ⟨hchained h.1, (hkeeps.has idx).2 h.2⟩
  | unlinkHead idx nxt => exact ⟨hchained h.1, (hkeeps.has idx).2 h.2⟩
  | reloadHeadRef idx => exact hchained h
  | loadBucket idx => exact ⟨hchained h.1, hkeeps.passed idx h.2.1, hkeeps.other idx h.2.2⟩
  | loadNext idx => exact ⟨hchained h.1, hkeeps.passed idx h.2.1, hkeeps.other idx h.2.2⟩
  | loadNextRef idx next => exact ⟨hchained h.1, hkeeps.passed next h.2⟩
  | loadNextNext idx next => exact ⟨hchained h.1, (hkeeps.has next).2 h.2⟩
  | unlink idx next nxt2 => exact ⟨hchained h.1, (hkeeps.has next).2 h.2⟩
  | free idx pc =>
    refine ⟨?_, h.2.frame (hslot idx rfl)⟩
    rw [hlive]
    exact h.1
  | subLen =>
    dsimp only [ErasePc.Knows] at h ⊢
    rw [hlive]
    exact h
  | subSize =>
    dsimp only [ErasePc.Knows] at h ⊢
    rw [hlive]
    exact h

theorem Pc.Knows.frame {pc : Pc} (h : pc.Knows s ch)
    (hkeeps : ∀ ref, pc.key = some ref →
      Keeps s.map s'.map ch ch' ref ∧ s'.live.lookup ref = s.live.lookup ref)
    (hslot : ∀ i, pc.role.slot = some i → s'.map.nodes i = s.map.nodes i) (htrusts : Trusts s s')
    (hmigrates : ∀ ref, pc.Migrates ref → s.map.state (s.map.hash ref) = .treeifying →
      s'.map.state (s.map.hash ref) = .treeifying)
    : pc.Knows s' ch' := by
  cases pc with
  | idle => trivial
  | insert ref order pc =>
    have hk := hkeeps ref rfl
    constructor
    . rw [hk.2]
      exact h.1
    . exact h.2.frame hk.1 hslot htrusts (fun hmigrating => hmigrates ref ⟨rfl, hmigrating⟩)
  | find ref pc =>
    have hk := hkeeps ref rfl
    exact FindPc.Knows.frame h hk.1 hk.2
  | erase ref pc =>
    have hk := hkeeps ref rfl
    exact ErasePc.Knows.frame h hk.1 hk.2 hslot

theorem Pc.Knows.of_eq {pc : Pc} (h : pc.Knows s ch) (hmap : s'.map = s.map)
    (hexchanges : s'.exchanges = s.exchanges) (hlive : s'.live = s.live) : pc.Knows s' ch := by
  apply h.frame
  . intro ref _
    rw [hmap, hlive]
    exact ⟨.refl _ _ _, rfl⟩
  . intro i _
    rw [hmap]
  . apply Or.inl
    rw [hmap]
    exact ⟨hexchanges, rfl, fun _ => rfl⟩
  . intro ref _ hstate
    rw [hmap]
    exact hstate

theorem dropLive_of_none (hlive : s.live.lookup ref = none) : s.dropLive ref = s := by
  have hsame : s.live.erase ref = s.live := by
    apply Finmap.ext_lookup
    intro r
    by_cases hr : r = ref
    . rw [hr, Finmap.lookup_erase, hlive]
    . rw [Finmap.lookup_erase_ne hr]
  unfold dropLive
  rw [hsame]

end SharedMap

end NebulaXTrader
