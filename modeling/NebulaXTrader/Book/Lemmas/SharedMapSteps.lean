import NebulaXTrader.Book.Lemmas.SharedMapMoves

/-!
This module contains the lemma that every careful step keeps the invariant of the shared map.
-/

namespace NebulaXTrader

namespace SharedMap

variable {T : Type} [Fintype T] {owner : Nat → T} {s s' : SharedMap T} {fl : List Nat}
  {ch : Nat → List Nat} {own : Nat → Place T} {t : T} {ref order : Nat}

theorem Inv.chain_eq (h : s.Inv owner fl ch own) (b : Nat) : s.map.chain b = ch b :=
  h.layout.chain_eq (fun i hi => ((h.chain b i).1 hi).1)

theorem Inv.has (h : s.Inv owner fl ch own) {idx : Nat} (hgenuine : s.Genuine ref idx)
    (href : (s.map.nodes idx).orderRef = ref) : Has s.map ch ref idx := by
  constructor
  . rw [← h.chain_eq]
    exact hgenuine href
  . exact href

theorem Inv.moved (h : s.Inv owner fl ch own) (hmoved : s.Moved ref)
    : s.map.state (s.map.hash ref) = .treeified ∨ Chained s.map ch ref none := by
  apply hmoved.imp_right
  intro hnot i hi
  rw [h.chain_eq] at hnot
  exact hnot i hi.1 hi.2

/-!
As long as no node is on a copied chain every node that is not free stands for a live reference of its own.
-/

omit [Fintype T] in
theorem Pc.Knows.live_of_slot {pc : Pc} {i : Nat} (h : pc.Knows s ch) (hslot : pc.role.slot = some i)
    : ∃ r, pc.Hides r ∧ s.live.lookup r ≠ none := by
  cases pc with
  | insert ref order pc =>
    refine ⟨ref, ⟨rfl, ?_⟩, ?_⟩
    . cases pc with
      | addLen => cases hslot
      | addSize => cases hslot
      | reloadLen => cases hslot
      | treeify linked => cases hslot
      | migrate linked => cases hslot
      | _ => rfl
    . rw [h.1]
      exact Option.some_ne_none _
  | erase ref pc =>
    cases pc with
    | free idx pc => exact ⟨ref, ⟨rfl, rfl⟩, h.1⟩
    | _ => cases hslot
  | _ => cases hslot

theorem Inv.view_of_has (h : s.Inv owner fl ch own) {r i : Nat} (hi : Has s.map ch r i)
    (hstate : s.map.state (s.map.hash r) ≠ .treeified) : s.view owner r ≠ none := by
  intro hnone
  have hstored := h.stored r
  rw [hnone] at hstored
  exact hstored.moved_of_none.resolve_left hstate i hi

omit [Fintype T] in
theorem view_of_hides {r : Nat} (hhides : (s.threads (owner r)).Hides r) : s.view owner r = none := by
  unfold view
  rw [if_pos hhides]

def StandsFor (s : SharedMap T) (own : Nat → Place T) (i r : Nat) : Prop :=
  (∃ b, own i = .chain b ∧ (s.map.nodes i).orderRef = r) ∨ ∃ t, own i = .thread t ∧ (s.threads t).Hides r

theorem Inv.standsFor_unique (h : s.Inv owner fl ch own) {i j r : Nat} (hi : i < s.map.capacity)
    (hj : j < s.map.capacity) (hcopied : ∀ i < s.map.capacity, s.map.state (s.map.nodes i).bucket ≠ .treeified)
    (hir : StandsFor s own i r) (hjr : StandsFor s own j r) : i = j := by
  have hhas : ∀ {x b}, x < s.map.capacity → own x = .chain b → (s.map.nodes x).orderRef = r →
      Has s.map ch r x ∧ s.view owner r ≠ none := by
    intro x b hx hplace href
    have hmem := (h.chain b x).2 ⟨hx, hplace⟩
    have hb : s.map.hash r = b := by
      rw [← href]
      exact h.layout.hashed b x hmem
    have hstate := hcopied x hx
    rw [h.layout.bucket b x hmem, ← hb] at hstate
    rw [← hb] at hmem
    exact ⟨⟨hmem, href⟩, h.view_of_has ⟨hmem, href⟩ hstate⟩
  have hhides : ∀ {t}, (s.threads t).Hides r → s.view owner r = none := by
    intro t ht
    apply view_of_hides
    rw [h.owned t r ht.1]
    exact ht
  cases hir with
  | inl hi' =>
    cases hi' with
    | intro b hb =>
      have hhi := hhas hi hb.1 hb.2
      cases hjr with
      | inl hj' =>
        cases hj' with
        | intro b' hb' =>
          have hhj := hhas hj hb'.1 hb'.2
          exact h.layout.distinct _ i hhi.1.1 j hhj.1.1 (hhi.1.2.trans hhj.1.2.symm)
      | inr hj' =>
        cases hj' with
        | intro t' ht' => exact absurd (hhides ht'.2) hhi.2
  | inr hi' =>
    cases hi' with
    | intro t ht =>
      cases hjr with
      | inl hj' =>
        cases hj' with
        | intro b' hb' => exact absurd (hhides ht.2) (hhas hj hb'.1 hb'.2).2
      | inr hj' =>
        cases hj' with
        | intro t' ht' =>
          have heq : t = t' := (h.owned t r ht.2.1).symm.trans (h.owned t' r ht'.2.1)
          have hslot := (h.slot t i).2 ⟨hi, ht.1⟩
          rw [heq, (h.slot t' j).2 ⟨hj, ht'.1⟩] at hslot
          exact (Option.some.inj hslot).symm

theorem Inv.standsFor (h : s.Inv owner fl ch own) {i : Nat} (hi : i < s.map.capacity) (hfree : i ∉ fl)
    (hcopied : ∀ i < s.map.capacity, s.map.state (s.map.nodes i).bucket ≠ .treeified)
    : ∃ r, StandsFor s own i r ∧ s.live.lookup r ≠ none ∧
        ((s.threads (owner r)).Hides r → (s.threads (owner r)).role.slot = some i) := by
  cases hplace : own i with
  | free => exact absurd ((h.free i).2 ⟨hi, hplace⟩) hfree
  | chain b =>
    have hmem := (h.chain b i).2 ⟨hi, hplace⟩
    have hb := h.layout.hashed b i hmem
    have hstate := hcopied i hi
    rw [h.layout.bucket b i hmem, ← hb] at hstate
    rw [← hb] at hmem
    have hview := h.view_of_has ⟨hmem, rfl⟩ hstate
    refine ⟨(s.map.nodes i).orderRef, Or.inl ⟨b, hplace, rfl⟩, ?_, ?_⟩
    . intro hnone
      apply hview
      unfold view
      rw [hnone, ite_self]
    . intro hhides
      exact absurd (view_of_hides hhides) hview
  | thread t =>
    have hslot := (h.slot t i).2 ⟨hi, hplace⟩
    cases (h.knows t).live_of_slot hslot with
    | intro r hr =>
      refine ⟨r, Or.inr ⟨t, hplace, hr.1⟩, hr.2, ?_⟩
      intro _
      rw [h.owned t r hr.1.1]
      exact hslot

theorem Inv.room (h : s.Inv owner fl ch own) {pc : InsertPc} (hpc : s.threads t = .insert ref order pc)
    (hslot : pc.role.slot = none) (hhidden : pc.role.hidden = true) (hroom : s.Room)
    : s.map.freeHead.idx ≠ noIdx := by
  intro hempty
  have hcopied := hroom hempty
  have hnil : fl = [] := by
    have hfree := h.layout.free
    rw [hempty] at hfree
    exact hfree.eq_nil
  have hex : ∀ i, i < s.map.capacity → ∃ r, StandsFor s own i r ∧ r ∈ s.live.keys.erase ref := by
    intro i hi
    have hfree : i ∉ fl := by
      rw [hnil]
      exact List.not_mem_nil
    cases h.standsFor hi hfree hcopied with
    | intro r hr =>
      refine ⟨r, hr.1, Finset.mem_erase.2 ⟨?_, ?_⟩⟩
      . -- the reference that is about to be inserted has no node yet
        intro heq
        have ht := h.owner_eq hpc rfl
        have hnode := hr.2.2
        rw [heq, ht, hpc] at hnode
        have hsome : pc.role.slot = some i := hnode ⟨rfl, hhidden⟩
        rw [hslot] at hsome
        cases hsome
      . rw [Finmap.mem_keys]
        exact not_not.1 (fun hnot => hr.2.1 (Finmap.lookup_eq_none.2 hnot))
  choose! f hf using hex
  have hle : (Finset.range s.map.capacity).card ≤ (s.live.keys.erase ref).card := by
    apply Finset.card_le_card_of_injOn f
    . intro i hi
      exact (hf i (Finset.mem_range.1 hi)).2
    . intro i hi j hj heq
      have hi' := hf i (Finset.mem_range.1 hi)
      rw [heq] at hi'
      exact h.standsFor_unique (Finset.mem_range.1 hi) (Finset.mem_range.1 hj) hcopied hi'.1
        (hf j (Finset.mem_range.1 hj)).1
  have hmem : ref ∈ s.live.keys := by
    have hknows := h.knows t
    rw [hpc] at hknows
    rw [Finmap.mem_keys]
    exact Finmap.mem_of_lookup_eq_some hknows.1
  rw [Finset.card_range, Finset.card_erase_of_mem hmem] at hle
  have hcard := h.card
  have hpos := Finset.card_pos.2 ⟨ref, hmem⟩
  omega

variable [DecidableEq T]

theorem Inv.stepFind (h : s.Inv owner fl ch own) {pc : FindPc} (hpc : s.threads t = .find ref pc)
    (hcareful : pc.Careful s ref) (hstep : s.stepFind t ref pc = some s') : s'.Inv owner fl ch own := by
  have hknows := h.knows t
  rw [hpc] at hknows
  have hstored := h.stored_self hpc rfl
  have hset : ∀ {pc' : FindPc}, pc'.Knows s ch ref → (s.setPc t (.find ref pc')).Inv owner fl ch own :=
    fun hk => h.setPc hpc rfl (Or.inl rfl) rfl rfl hk
  cases pc with
  | loadState =>
    dsimp only [SharedMap.stepFind] at hstep
    split at hstep
    . next hstate =>
      cases hstep
      exact hset hstate
    . next hstate =>
      cases hstep
      exact hset (hstored.chained (not_not.1 hstate))
  | locked =>
    cases hstep
    exact hset (hstored.overflow (h.moved hcareful))
  | loadHead =>
    dsimp only [SharedMap.stepFind] at hstep
    split at hstep
    . next hnil =>
      cases hstep
      exact hset (hknows.eq_none (h.layout.chained_none_of_nil hnil)).symm
    . cases hstep
      exact hset ⟨hknows, (h.layout.chains _).passed_start⟩
  | loadBucket idx =>
    dsimp only [SharedMap.stepFind] at hstep
    split at hstep
    . cases hstep
      exact hset hknows.1
    . cases hstep
      exact hset hknows
  | loadRef idx =>
    dsimp only [SharedMap.stepFind] at hstep
    split at hstep
    . next href =>
      cases hstep
      exact hset ⟨hknows.1, h.has hcareful href⟩
    . next href =>
      cases hstep
      exact hset ⟨hknows.1, hknows.2, href⟩
  | loadOrder idx =>
    cases hstep
    exact hset (h.layout.chained_eq hknows.1 hknows.2).symm
  | loadNext idx =>
    have hidx : idx ∈ ch (s.map.hash ref) := by
      rw [← h.chain_eq]
      exact hcareful
    have hlist := h.layout.chains (s.map.hash ref)
    dsimp only [SharedMap.stepFind] at hstep
    split at hstep
    . next hend =>
      cases hstep
      have hnone := hlist.passed_end hidx hknows.2.2 hknows.2.1 hend
      exact hset (hknows.1.eq_none (fun i hi => hnone i hi.1 hi.2)).symm
    . cases hstep
      exact hset ⟨hknows.1, hlist.passed_next hidx hknows.2.2 hknows.2.1⟩
  | found o =>
    cases hstep
    exact h.setPc hpc rfl (Or.inr rfl) rfl rfl trivial

theorem Inv.stepFree (h : s.Inv owner fl ch own) {pc : FreePc} {idx : Nat} (inside : FreePc → Pc) (after : Pc)
    (hpc : s.threads t = inside pc) (hkey : ∀ pc, (inside pc).key = some ref)
    (hrole : ∀ pc pc', (inside pc).role = (inside pc').role) (hslot : ∀ pc, (inside pc).role.slot = some idx)
    (hmigrating : ∀ pc, (inside pc).role.migrating = false) (hkey' : after.key = some ref)
    (hrole' : after.role = { (inside pc).role with slot := none }) (hlink : pc.Knows s.map idx)
    (hinside : ∀ (s' : SharedMap T) (pc' : FreePc), s'.map.hash = s.map.hash → s'.map.state = s.map.state →
      s'.live = s.live → pc'.Knows s'.map idx → (inside pc').Knows s' ch)
    (hafter : after.Knows (s.exchange idx) ch)
    : ∃ fl' own', (s.stepFree t idx inside after pc).Inv owner fl' ch own' := by
  cases pc with
  | load => exact ⟨fl, own, h.setPc hpc (hkey _) (Or.inl (hkey _)) (hrole _ _) (hmigrating _)
      (hinside s _ rfl rfl rfl trivial)⟩
  | storeNext fh =>
    refine ⟨fl, own, ?_⟩
    apply h.store hpc (hkey _) (hkey _) (hrole _ _) (hmigrating _) (hslot _)
      (fun node => { node with nextIdx := fh.idx }) (fun _ => Or.inl rfl)
    apply hinside (s.setMap (s.map.setNext idx fh.idx)) (.push fh) (OrderMap.hash_congr rfl) rfl rfl
    show (Function.update s.map.nodes idx _ idx).nextIdx = fh.idx
    rw [Function.update_self]
  | push fh =>
    unfold SharedMap.stepFree
    dsimp only
    split
    . next hhead =>
      have hlink' : s.map.next idx = s.map.freeHead.idx := by
        rw [hhead]
        exact hlink
      exact ⟨_, _, h.pushNode hpc (hkey _) hkey' (hslot _) hrole' (hmigrating _) hlink' hafter⟩
    . exact ⟨fl, own, h.setPc hpc (hkey _) (Or.inl (hkey _)) (hrole _ _) (hmigrating _)
      (hinside s _ rfl rfl rfl trivial)⟩

theorem Inv.unlinkHead (h : s.Inv owner fl ch own) {idx nxt : Nat}
    (hpc : s.threads t = .erase ref (.unlinkHead idx nxt)) (hcareful : (ErasePc.unlinkHead idx nxt).Careful s ref)
    (hhead : s.map.buckets (s.map.hash ref) = idx)
    : ∃ ch' own', ((s.setMap (s.map.setBucket (s.map.hash ref) nxt)).setPc t
        (.erase ref (.free idx .load))).Inv owner fl ch' own' := by
  have hknows := h.knows t
  rw [hpc] at hknows
  have hcare := hcareful hhead
  have hlist := h.layout.chains (s.map.hash ref)
  cases hch : ch (s.map.hash ref) with
  | nil =>
    have hmem := hknows.2.1
    rw [hch] at hmem
    cases hmem
  | cons x l =>
    rw [hch, Chain.isList_cons, hhead] at hlist
    have hx : idx = x := hlist.1
    subst hx
    have hsplit : ch (s.map.hash ref) = [] ++ idx :: l := hch
    refine ⟨_, _, h.unlink hpc rfl hknows.1 hknows.2.2 hsplit (.setBucket _ _ _ _) ?_ hcare.1⟩
    show Chain.IsList s.map.next noIdx (Function.update s.map.buckets _ nxt _) _
    rw [Function.update_self, hcare.2]
    exact hlist.2.2

theorem Inv.unlinkNext (h : s.Inv owner fl ch own) {idx next nxt2 : Nat}
    (hpc : s.threads t = .erase ref (.unlink idx next nxt2))
    (hcareful : (ErasePc.unlink idx next nxt2).Careful s ref) (hnext : s.map.next idx = next)
    : ∃ ch' own', ((s.setMap (s.map.setNext idx nxt2)).setPc t (.erase ref (.free next .load))).Inv owner fl
        ch' own' := by
  have hknows := h.knows t
  rw [hpc] at hknows
  have hcare := hcareful hnext
  have hidx : idx ∈ ch (s.map.hash ref) := by
    rw [← h.chain_eq]
    exact hcare.2.1
  have hlist := h.layout.chains (s.map.hash ref)
  cases hlist.split hidx with
  | intro l₁ hex =>
    cases hex with
    | intro l₂ hl =>
      cases l₂ with
      | nil =>
        have hend := Chain.isList_nil.1 hl.2
        rw [hnext] at hend
        exact absurd hend (hlist.ne_stop hknows.2.1)
      | cons x l₂ =>
        have hx := (Chain.isList_cons.1 hl.2).1
        rw [hnext] at hx
        subst hx
        have hb : ch (s.map.hash ref) = (l₁ ++ [idx]) ++ next :: l₂ := by
          rw [hl.1, List.append_assoc]
          rfl
        refine ⟨_, _, h.unlink hpc rfl hknows.1 hknows.2.2 hb (.setNext hidx _) ?_ hcare.1⟩
        rw [hl.1] at hlist
        have hunlink := hlist.unlink
        rw [← hcare.2.2, ← OrderMap.setNext_next] at hunlink
        rw [List.append_assoc]
        exact hunlink

theorem Inv.setErase (h : s.Inv owner fl ch own) {pc pc' : ErasePc} (hpc : s.threads t = .erase ref pc)
    (hrole : pc'.role = pc.role) (hm : pc.role.migrating = false) (hk : pc'.Knows s ch ref)
    : ∃ fl' ch' own', (s.setPc t (.erase ref pc')).Inv owner fl' ch' own' :=
  ⟨fl, ch, own, h.setPc hpc rfl (Or.inl rfl) hrole hm hk⟩

theorem Inv.finishErase (h : s.Inv owner fl ch own) {pc : ErasePc} (hpc : s.threads t = .erase ref pc)
    (hrole : pc.role = {}) (hnone : s.live.lookup ref = none)
    : ∃ fl' ch' own', ((s.dropLive ref).setPc t .idle).Inv owner fl' ch' own' := by
  rw [dropLive_of_none hnone]
  have hrole' : (Pc.erase ref pc).role = {} := hrole
  exact ⟨fl, ch, own, h.setPc hpc rfl (Or.inr rfl) hrole'.symm (by rw [hrole']) trivial⟩

theorem Inv.eraseLocked (h : s.Inv owner fl ch own) (hpc : s.threads t = .erase ref .locked)
    (hcareful : ErasePc.locked.Careful s ref) (hstep : s.stepErase t ref .locked = some s')
    : ∃ fl' ch' own', s'.Inv owner fl' ch' own' := by
  have hknows := h.knows t
  rw [hpc] at hknows
  have hstored : Stored s.map ch ref (s.live.lookup ref) := h.stored_self hpc rfl
  have hoverflow := hstored.overflow (h.moved hcareful)
  dsimp only [SharedMap.stepErase] at hstep
  split at hstep
  . next hsome =>
    cases hstep
    have hlive : s.live.lookup ref ≠ none := by
      rw [← hoverflow]
      exact Option.isSome_iff_ne_none.1 hsome
    generalize hsize : Wrap.sub (2 ^ 64) (s.map.setOverflow _).size 1 = size
    refine ⟨fl, ch, own, h.erased hpc rfl rfl hlive ?_ ?_ hsize⟩
    . exact ⟨rfl, rfl, rfl, rfl, rfl, fun _ _ => rfl, fun _ => Or.inl rfl,
        fun r hr => Function.update_of_ne hr _ _, fun _ _ => rfl⟩
    . exact Stored.of_overflow rfl rfl rfl (Function.update_self _ _ _) hknows (h.moved hcareful)
  . next hsome =>
    cases hstep
    apply h.finishErase hpc rfl
    rw [← hoverflow]
    exact Option.not_isSome_iff_eq_none.1 hsome

theorem Inv.eraseLoadHead (h : s.Inv owner fl ch own) (hpc : s.threads t = .erase ref .loadHead)
    (hstep : s.stepErase t ref .loadHead = some s') : ∃ fl' ch' own', s'.Inv owner fl' ch' own' := by
  have hknows := h.knows t
  rw [hpc] at hknows
  dsimp only [SharedMap.stepErase] at hstep
  split at hstep
  . next hnil =>
    cases hstep
    exact h.finishErase hpc rfl (hknows.eq_none (h.layout.chained_none_of_nil hnil))
  . cases hstep
    exact h.setErase hpc rfl rfl ⟨hknows, (h.layout.chains _).passed_start⟩

theorem Inv.eraseLoadNext (h : s.Inv owner fl ch own) {idx : Nat} (hpc : s.threads t = .erase ref (.loadNext idx))
    (hcareful : (ErasePc.loadNext idx).Careful s ref) (hstep : s.stepErase t ref (.loadNext idx) = some s')
    : ∃ fl' ch' own', s'.Inv owner fl' ch' own' := by
  have hknows := h.knows t
  rw [hpc] at hknows
  have hidx : idx ∈ ch (s.map.hash ref) := by
    rw [← h.chain_eq]
    exact hcareful
  have hlist := h.layout.chains (s.map.hash ref)
  dsimp only [SharedMap.stepErase] at hstep
  split at hstep
  . next hend =>
    cases hstep
    have hnone := hlist.passed_end hidx hknows.2.2 hknows.2.1 hend
    exact h.finishErase hpc rfl (hknows.1.eq_none (fun i hi => hnone i hi.1 hi.2))
  . cases hstep
    exact h.setErase hpc rfl rfl ⟨hknows.1, hlist.passed_next hidx hknows.2.2 hknows.2.1⟩

theorem Inv.eraseFree (h : s.Inv owner fl ch own) {idx : Nat} {pc : FreePc}
    (hpc : s.threads t = .erase ref (.free idx pc)) (hstep : s.stepErase t ref (.free idx pc) = some s')
    : ∃ fl' ch' own', s'.Inv owner fl' ch' own' := by
  have hknows := h.knows t
  rw [hpc] at hknows
  cases hstep
  have hfree := h.stepFree (fun pc => .erase ref (.free idx pc)) (.erase ref .subLen) hpc
    (fun _ => rfl) (fun _ _ => rfl) (fun _ => rfl) (fun _ => rfl) rfl rfl hknows.2
    (fun s' pc' _ _ hlive hlink => ⟨by rw [hlive]; exact hknows.1, hlink⟩) hknows.1
  cases hfree with
  | intro fl' hex => exact ⟨fl', ch, hex⟩

theorem Inv.eraseSize (h : s.Inv owner fl ch own) (hpc : s.threads t = .erase ref .subSize)
    (hstep : s.stepErase t ref .subSize = some s') : ∃ fl' ch' own', s'.Inv owner fl' ch' own' := by
  have hknows := h.knows t
  rw [hpc] at hknows
  cases hstep
  have hstored : Stored s.map ch ref none := h.stored_self hpc rfl
  generalize hsize : Wrap.sub (2 ^ 64) s.map.size 1 = size
  refine ⟨fl, ch, own, h.erased hpc rfl rfl hknows ?_ hstored hsize⟩
  exact ⟨rfl, rfl, rfl, rfl, rfl, fun _ _ => rfl, fun _ => Or.inl rfl, fun _ _ => rfl, fun _ _ => rfl⟩

theorem Inv.stepErase (h : s.Inv owner fl ch own) {pc : ErasePc} (hpc : s.threads t = .erase ref pc)
    (hcareful : pc.Careful s ref) (hstep : s.stepErase t ref pc = some s')
    : ∃ fl' ch' own', s'.Inv owner fl' ch' own' := by
  have hknows := h.knows t
  rw [hpc] at hknows
  cases pc with
  | locked => exact h.eraseLocked hpc hcareful hstep
  | loadHead => exact h.eraseLoadHead hpc hstep
  | loadNext idx => exact h.eraseLoadNext hpc hcareful hstep
  | free idx pc => exact h.eraseFree hpc hstep
  | subSize => exact h.eraseSize hpc hstep
  | loadState =>
    have hstored : Stored s.map ch ref (s.live.lookup ref) := h.stored_self hpc rfl
    dsimp only [SharedMap.stepErase] at hstep
    split at hstep
    . next hstate =>
      cases hstep
      exact h.setErase hpc rfl rfl hstate
    . next hstate =>
      cases hstep
      exact h.setErase hpc rfl rfl (hstored.chained (not_not.1 hstate))
  | loadHeadRef idx =>
    dsimp only [SharedMap.stepErase] at hstep
    split at hstep
    . next href =>
      cases hstep
      exact h.setErase hpc rfl rfl ⟨hknows.1, h.has hcareful href⟩
    . next href =>
      cases hstep
      exact h.setErase hpc rfl rfl ⟨hknows.1, hknows.2, href⟩
  | loadHeadNext idx =>
    cases hstep
    exact h.setErase hpc rfl rfl hknows
  | unlinkHead idx nxt =>
    dsimp only [SharedMap.stepErase] at hstep
    split at hstep
    . next hhead =>
      cases hstep
      exact ⟨fl, h.unlinkHead hpc hcareful hhead⟩
    . cases hstep
      exact h.setErase hpc rfl rfl hknows.1
  | reloadHeadRef idx =>
    dsimp only [SharedMap.stepErase] at hstep
    split at hstep
    . cases hstep
      exact h.setErase hpc rfl rfl hknows
    . next href =>
      cases hstep
      exact h.setErase hpc rfl rfl ⟨hknows, h.has hcareful (not_not.1 href)⟩
  | loadBucket idx =>
    dsimp only [SharedMap.stepErase] at hstep
    split at hstep
    . cases hstep
      exact h.setErase hpc rfl rfl hknows.1
    . cases hstep
      exact h.setErase hpc rfl rfl hknows
  | loadNextRef idx next =>
    dsimp only [SharedMap.stepErase] at hstep
    split at hstep
    . next href =>
      cases hstep
      exact h.setErase hpc rfl rfl ⟨hknows.1, h.has hcareful href⟩
    . next href =>
      cases hstep
      exact h.setErase hpc rfl rfl ⟨hknows.1, hknows.2, href⟩
  | loadNextNext idx next =>
    cases hstep
    exact h.setErase hpc rfl rfl hknows
  | unlink idx next nxt2 =>
    dsimp only [SharedMap.stepErase] at hstep
    split at hstep
    . next hnext =>
      cases hstep
      exact ⟨fl, h.unlinkNext hpc hcareful hnext⟩
    . cases hstep
      exact h.setErase hpc rfl rfl hknows.1
  | subLen =>
    cases hstep
    have hkey' : (Pc.erase ref .subSize).key = some ref := rfl
    exact ⟨fl, ch, own, h.setLen hpc rfl (Or.inl hkey') rfl rfl _ _ hknows⟩

theorem Inv.testFree (h : s.Inv owner fl ch own) {pc : InsertPc} (hpc : s.threads t = .insert ref order pc)
    (hrole : pc.role = { hidden := true, pending := 1 }) (hroom : s.Room)
    : (s.testFree t ref order).Inv owner fl ch own := by
  have hknows := h.knows t
  rw [hpc] at hknows
  have hne : s.map.freeHead.idx ≠ noIdx := by
    apply h.room hpc _ _ hroom
    . rw [hrole]
    . rw [hrole]
  have hrole' : (Pc.insert ref order pc).role = { hidden := true, pending := 1 } := hrole
  have hkey' : (Pc.insert ref order (.loadNext s.map.freeHead s.exchanges)).key = some ref := rfl
  unfold SharedMap.testFree
  rw [if_neg hne]
  apply h.setPc hpc rfl (Or.inl hkey') hrole'.symm
  . rw [hrole']
  . exact ⟨hknows.1, hne, Nat.le_refl _, h.tag, fun _ => rfl⟩

omit [Fintype T] [DecidableEq T] in
theorem Written.setNext {m : OrderMap} {idx : Nat} (h : Written m ref order idx) (head : Nat)
    : Written (m.setNext idx head) ref order idx := by
  have hhash : (m.setNext idx head).hash ref = m.hash ref := congrFun (OrderMap.hash_congr rfl) ref
  constructor
  . rw [OrderMap.setNext_orderRef]
    exact h.orderRef
  . rw [OrderMap.setNext_order]
    exact h.order
  . rw [OrderMap.setNext_bucket, hhash]
    exact h.bucket

theorem Inv.setInsert (h : s.Inv owner fl ch own) {pc pc' : InsertPc} (hpc : s.threads t = .insert ref order pc)
    (hrole : pc'.role = pc.role) (hm : pc.role.migrating = false) (hk : pc'.Knows s ref order)
    : ∃ fl' ch' own', (s.setPc t (.insert ref order pc')).Inv owner fl' ch' own' := by
  have hknows := h.knows t
  rw [hpc] at hknows
  exact ⟨fl, ch, own, h.setPc hpc rfl (Or.inl rfl) hrole hm ⟨hknows.1, hk⟩⟩

theorem Inv.storeInsert (h : s.Inv owner fl ch own) {pc : InsertPc} (pc' : InsertPc)
    (hpc : s.threads t = .insert ref order pc) {idx : Nat} (f : OrderMap.Node → OrderMap.Node)
    (hrole : pc'.role = pc.role) (hm : pc.role.migrating = false) (hslot : pc.role.slot = some idx)
    (hf : ∀ node, (f node).orderRef = node.orderRef ∨ (f node).orderRef = ref)
    (hk : pc'.Knows (s.setMap (s.map.modify idx f)) ref order)
    : ∃ fl' ch' own',
        ((s.setMap (s.map.modify idx f)).setPc t (.insert ref order pc')).Inv owner fl' ch' own' := by
  have hknows := h.knows t
  rw [hpc] at hknows
  have hrole' : (Pc.insert ref order pc').role = (Pc.insert ref order pc).role := hrole
  exact ⟨fl, ch, own, h.store hpc rfl rfl hrole' hm hslot f hf ⟨hknows.1, hk⟩⟩

theorem Inv.insertTreeify (h : s.Inv owner fl ch own) {linked : Bool}
    (hpc : s.threads t = .insert ref order (.treeify linked))
    (hstep : s.stepInsert t ref order (.treeify linked) = some s') : ∃ fl' ch' own', s'.Inv owner fl' ch' own' := by
  dsimp only [SharedMap.stepInsert] at hstep
  split at hstep
  . next hstate =>
    cases hstep
    exact ⟨fl, ch, own, h.treeify hpc hstate⟩
  . next hstate =>
    cases hstep
    cases linked with
    | true => exact ⟨fl, ch, own, h.setPc hpc rfl (Or.inr rfl) rfl rfl trivial⟩
    | false => exact h.setInsert hpc rfl rfl hstate

theorem Inv.insertTakeHead (h : s.Inv owner fl ch own) {fh : TaggedHead} {since next : Nat}
    (hpc : s.threads t = .insert ref order (.takeHead fh since next))
    (hcareful : (InsertPc.takeHead fh since next).Careful s ref)
    (hstep : s.stepInsert t ref order (.takeHead fh since next) = some s')
    : ∃ fl' ch' own', s'.Inv owner fl' ch' own' := by
  dsimp only [SharedMap.stepInsert] at hstep
  split at hstep
  . next hhead =>
    cases hstep
    exact ⟨_, _, _, h.takeHead hpc hhead (hcareful.2 hhead)⟩
  . cases hstep
    exact ⟨fl, ch, own, h.testFree hpc rfl hcareful.1⟩

/-!
The three fields of a new node are stored one after the other.
-/

theorem Inv.insertStoreRef (h : s.Inv owner fl ch own) {idx : Nat}
    (hpc : s.threads t = .insert ref order (.storeRef idx))
    (hstep : s.stepInsert t ref order (.storeRef idx) = some s') : ∃ fl' ch' own', s'.Inv owner fl' ch' own' := by
  cases hstep
  refine h.storeInsert (.storeOrder idx) hpc _ rfl rfl rfl (fun _ => Or.inr rfl) ?_
  show (Function.update s.map.nodes idx _ idx).orderRef = ref
  rw [Function.update_self]

theorem Inv.insertStoreOrder (h : s.Inv owner fl ch own) {idx : Nat}
    (hpc : s.threads t = .insert ref order (.storeOrder idx))
    (hstep : s.stepInsert t ref order (.storeOrder idx) = some s') : ∃ fl' ch' own', s'.Inv owner fl' ch' own' := by
  have hknows := h.knows t
  rw [hpc] at hknows
  cases hstep
  refine h.storeInsert (.storeBucket idx) hpc _ rfl rfl rfl (fun _ => Or.inl rfl) ?_
  show (Function.update s.map.nodes idx _ idx).orderRef = ref ∧
    (Function.update s.map.nodes idx _ idx).order = order
  rw [Function.update_self]
  exact ⟨hknows.2, rfl⟩

theorem Inv.insertStoreBucket (h : s.Inv owner fl ch own) {idx : Nat}
    (hpc : s.threads t = .insert ref order (.storeBucket idx))
    (hstep : s.stepInsert t ref order (.storeBucket idx) = some s') : ∃ fl' ch' own', s'.Inv owner fl' ch' own' := by
  have hknows := h.knows t
  rw [hpc] at hknows
  cases hstep
  refine h.storeInsert (.recheck idx) hpc _ rfl rfl rfl (fun _ => Or.inl rfl) ?_
  have hhash : ∀ f, (s.map.modify idx f).hash ref = s.map.hash ref :=
    fun _ => congrFun (OrderMap.hash_congr rfl) ref
  constructor
  . show (Function.update s.map.nodes idx _ idx).orderRef = ref
    rw [Function.update_self]
    exact hknows.2.1
  . show (Function.update s.map.nodes idx _ idx).order = order
    rw [Function.update_self]
    exact hknows.2.2
  . show (Function.update s.map.nodes idx _ idx).bucket = (s.map.modify idx _).hash ref
    rw [hhash, Function.update_self]

theorem Inv.insertStoreNext (h : s.Inv owner fl ch own) {idx head : Nat}
    (hpc : s.threads t = .insert ref order (.storeNext idx head))
    (hstep : s.stepInsert t ref order (.storeNext idx head) = some s')
    : ∃ fl' ch' own', s'.Inv owner fl' ch' own' := by
  have hknows := h.knows t
  rw [hpc] at hknows
  cases hstep
  refine h.storeInsert (.link idx head) hpc (fun node => { node with nextIdx := head }) rfl rfl rfl
    (fun _ => Or.inl rfl) ?_
  refine ⟨hknows.2.setNext head, ?_⟩
  show (Function.update s.map.nodes idx _ idx).nextIdx = head
  rw [Function.update_self]

theorem Inv.insertLink (h : s.Inv owner fl ch own) {idx head : Nat}
    (hpc : s.threads t = .insert ref order (.link idx head)) (hcareful : (InsertPc.link idx head).Careful s ref)
    (hstep : s.stepInsert t ref order (.link idx head) = some s') : ∃ fl' ch' own', s'.Inv owner fl' ch' own' := by
  have hknows := h.knows t
  rw [hpc] at hknows
  dsimp only [SharedMap.stepInsert] at hstep
  split at hstep
  . next hhead =>
    cases hstep
    exact ⟨_, _, _, h.link hpc hhead (hcareful hhead)⟩
  . cases hstep
    exact h.setInsert hpc rfl rfl hknows.2.1

theorem Inv.insertFree (h : s.Inv owner fl ch own) {idx : Nat} {pc : FreePc}
    (hpc : s.threads t = .insert ref order (.free idx pc))
    (hstep : s.stepInsert t ref order (.free idx pc) = some s') : ∃ fl' ch' own', s'.Inv owner fl' ch' own' := by
  have hknows := h.knows t
  rw [hpc] at hknows
  cases hstep
  have hfree := h.stepFree (fun pc => .insert ref order (.free idx pc)) (.insert ref order .locked) hpc
    (fun _ => rfl) (fun _ _ => rfl) (fun _ => rfl) (fun _ => rfl) rfl rfl hknows.2.2
    (fun s' pc' hhash hstate hlive hlink =>
      ⟨by rw [hlive]; exact hknows.1, by rw [hhash, hstate]; exact hknows.2.1, hlink⟩)
    ⟨hknows.1, hknows.2.1⟩
  cases hfree with
  | intro fl' hex => exact ⟨fl', ch, hex⟩

theorem Inv.stepInsert (h : s.Inv owner fl ch own) {pc : InsertPc} (hpc : s.threads t = .insert ref order pc)
    (hcareful : pc.Careful s ref) (hstep : s.stepInsert t ref order pc = some s')
    : ∃ fl' ch' own', s'.Inv owner fl' ch' own' := by
  have hknows := h.knows t
  rw [hpc] at hknows
  cases pc with
  | treeify linked => exact h.insertTreeify hpc hstep
  | takeHead fh since next => exact h.insertTakeHead hpc hcareful hstep
  | storeRef idx => exact h.insertStoreRef hpc hstep
  | storeOrder idx => exact h.insertStoreOrder hpc hstep
  | storeBucket idx => exact h.insertStoreBucket hpc hstep
  | storeNext idx head => exact h.insertStoreNext hpc hstep
  | link idx head => exact h.insertLink hpc hcareful hstep
  | free idx pc => exact h.insertFree hpc hstep
  | loadState =>
    dsimp only [SharedMap.stepInsert] at hstep
    split at hstep
    . next hstate =>
      cases hstep
      exact h.setInsert hpc rfl rfl hstate
    . cases hstep
      exact h.setInsert hpc rfl rfl trivial
  | loadLen =>
    dsimp only [SharedMap.stepInsert] at hstep
    split at hstep
    . cases hstep
      exact h.setInsert hpc rfl rfl trivial
    . cases hstep
      exact h.setInsert hpc rfl rfl trivial
  | loadFree =>
    dsimp only [SharedMap.stepInsert] at hstep
    split at hstep
    . cases hstep
      exact h.setInsert hpc rfl rfl trivial
    . cases hstep
      exact h.setInsert hpc rfl rfl trivial
  | migrate linked =>
    dsimp only [SharedMap.stepInsert] at hstep
    split at hstep
    . cases hstep
    . next overflow hcopy =>
      cases hstep
      exact ⟨fl, ch, own, h.migrate hpc hcopy⟩
  | alloc =>
    cases hstep
    exact ⟨fl, ch, own, h.testFree hpc rfl hcareful⟩
  | loadNext fh since =>
    cases hstep
    exact h.setInsert hpc rfl rfl ⟨hknows.2, fun _ => rfl⟩
  | recheck idx =>
    dsimp only [SharedMap.stepInsert] at hstep
    split at hstep
    . next hstate =>
      cases hstep
      exact h.setInsert hpc rfl rfl ⟨hstate, trivial⟩
    . cases hstep
      exact h.setInsert hpc rfl rfl hknows.2
  | loadHead idx =>
    cases hstep
    exact h.setInsert hpc rfl rfl hknows.2
  | relink idx head =>
    dsimp only [SharedMap.stepInsert] at hstep
    split at hstep
    . next hstate =>
      cases hstep
      exact h.setInsert hpc rfl rfl ⟨hstate, trivial⟩
    . cases hstep
      exact h.setInsert hpc rfl rfl hknows.2
  | addLen =>
    cases hstep
    have hkey' : (Pc.insert ref order .addSize).key = some ref := rfl
    exact ⟨fl, ch, own, h.setLen hpc rfl (Or.inl hkey') rfl rfl _ _ ⟨hknows.1, trivial⟩⟩
  | addSize =>
    cases hstep
    exact ⟨fl, ch, own, h.addSize hpc⟩
  | reloadLen =>
    dsimp only [SharedMap.stepInsert] at hstep
    split at hstep
    . cases hstep
      exact h.setInsert hpc rfl rfl trivial
    . cases hstep
      exact ⟨fl, ch, own, h.setPc hpc rfl (Or.inr rfl) rfl rfl trivial⟩
  | locked =>
    cases hstep
    exact ⟨fl, ch, own, h.lockedInsert hpc rfl⟩

theorem Inv.spurious (h : s.Inv owner fl ch own) (hcareful : s.Careful (.spurious t))
    (hstep : s.spurious t = some s') : s'.Inv owner fl ch own := by
  have hknows := h.knows t
  unfold SharedMap.Careful at hcareful
  unfold SharedMap.spurious at hstep
  split at hstep
  . next ref order fh since next hpc =>
    cases hstep
    dsimp only at hcareful
    rw [hpc] at hcareful
    exact h.testFree hpc rfl hcareful
  . next ref order idx head hpc =>
    cases hstep
    rw [hpc] at hknows
    exact h.setPc hpc rfl (Or.inl rfl) rfl rfl ⟨hknows.1, hknows.2.1⟩
  . next ref order idx fh hpc =>
    cases hstep
    rw [hpc] at hknows
    exact h.setPc hpc rfl (Or.inl rfl) rfl rfl ⟨hknows.1, hknows.2.1, trivial⟩
  . next ref idx nxt hpc =>
    cases hstep
    rw [hpc] at hknows
    exact h.setPc hpc rfl (Or.inl rfl) rfl rfl hknows.1
  . next ref idx next nxt2 hpc =>
    cases hstep
    rw [hpc] at hknows
    exact h.setPc hpc rfl (Or.inl rfl) rfl rfl hknows.1
  . next ref idx fh hpc =>
    cases hstep
    rw [hpc] at hknows
    exact h.setPc hpc rfl (Or.inl rfl) rfl rfl ⟨hknows.1, trivial⟩
  . cases hstep

theorem Inv.step {l : Label T} (h : s.Inv owner fl ch own) (hcareful : s.Careful l)
    (hstep : s.step owner l = some s') : ∃ fl' ch' own', s'.Inv owner fl' ch' own' := by
  cases l with
  | insert t ref order =>
    dsimp only [SharedMap.step] at hstep
    split at hstep
    . next hcall =>
      cases hstep
      exact ⟨fl, ch, own, h.beginInsert hcall.1 hcall.2.1 hcall.2.2.1 hcall.2.2.2 order⟩
    . cases hstep
  | find t ref =>
    dsimp only [SharedMap.step] at hstep
    split at hstep
    . next hcall =>
      cases hstep
      exact ⟨fl, ch, own, h.begin hcall.1 hcall.2 rfl rfl trivial⟩
    . cases hstep
  | erase t ref =>
    dsimp only [SharedMap.step] at hstep
    split at hstep
    . next hcall =>
      cases hstep
      exact ⟨fl, ch, own, h.begin hcall.1 hcall.2 rfl rfl trivial⟩
    . cases hstep
  | advance t =>
    unfold SharedMap.Careful at hcareful
    dsimp only [SharedMap.step] at hstep hcareful
    unfold SharedMap.advance at hstep
    cases hpc : s.threads t with
    | idle =>
      rw [hpc] at hstep
      cases hstep
    | insert ref order pc =>
      rw [hpc] at hstep hcareful
      exact h.stepInsert hpc hcareful hstep
    | find ref pc =>
      rw [hpc] at hstep hcareful
      exact ⟨fl, ch, own, h.stepFind hpc hcareful hstep⟩
    | erase ref pc =>
      rw [hpc] at hstep hcareful
      exact h.stepErase hpc hcareful hstep
  | spurious t => exact ⟨fl, ch, own, h.spurious hcareful hstep⟩

end SharedMap

end NebulaXTrader
