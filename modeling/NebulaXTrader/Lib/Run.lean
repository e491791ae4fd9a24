/-!
This module contains runs of a labelled transition system: a partial step function, the runs along a
list of labels, and the induction rule for the runs whose steps are all taken under a side condition.
-/

namespace Run

variable {σ α : Type} (step : σ → α → Option σ)

def exec (s : σ) (as : List α) : Option σ :=
  match as with
  | [] => some s
  | a :: as =>
    match step s a with
    | some s' => exec s' as
    | none => none

/--
The run from `s` along `as` takes each of its steps in a state in which `good` allows it.
-/
def Along (good : σ → α → Prop) (s : σ) (as : List α) : Prop :=
  match as with
  | [] => True
  | a :: as => good s a ∧ ∀ s', step s a = some s' → Along good s' as

instance Along.decidable (good : σ → α → Prop) [∀ s a, Decidable (good s a)] (s : σ)
    (as : List α) : Decidable (Along step good s as) :=
  match as with
  | [] => isTrue trivial
  | a :: as =>
    match h : step s a with
    | some s' =>
      have := Along.decidable good s' as
      decidable_of_iff (good s a ∧ Along step good s' as) (by simp [Along, h])
    | none => decidable_of_iff (good s a) (by simp [Along, h])

variable {step}

theorem exec_append (s : σ) (as bs : List α)
    : exec step s (as ++ bs) = (exec step s as).bind (fun s' => exec step s' bs) := by
  induction as generalizing s with
  | nil => rfl
  | cons a as ih =>
    simp only [List.cons_append, exec]
    cases step s a with
    | none => rfl
    | some s' => exact ih s'

theorem exec_concat {s s' : σ} {as : List α} {a : α} (h : exec step s (as ++ [a]) = some s')
    : ∃ s₁, exec step s as = some s₁ ∧ step s₁ a = some s' := by
  rw [exec_append] at h
  cases hs : exec step s as with
  | none =>
    rw [hs] at h
    cases h
  | some s₁ =>
    rw [hs] at h
    have hone : exec step s₁ [a] = some s' := h
    unfold exec at hone
    split at hone
    . next s₂ h₂ =>
      cases hone
      exact ⟨s₁, rfl, h₂⟩
    . cases hone

theorem exec_singleton {s s' : σ} {a : α} (h : step s a = some s') : exec step s [a] = some s' := by
  unfold exec
  rw [h]
  rfl

theorem Along.append_left {good : σ → α → Prop} {s : σ} {as bs : List α}
    (h : Along step good s (as ++ bs)) : Along step good s as := by
  induction as generalizing s with
  | nil => trivial
  | cons a as ih =>
    rw [List.cons_append] at h
    unfold Along at h ⊢
    constructor
    . exact h.1
    . intro s' hs
      exact ih (h.2 s' hs)

theorem Along.append_right {good : σ → α → Prop} {s s' : σ} {as bs : List α}
    (h : Along step good s (as ++ bs)) (he : exec step s as = some s') : Along step good s' bs := by
  induction as generalizing s with
  | nil =>
    cases he
    exact h
  | cons a as ih =>
    rw [List.cons_append] at h
    unfold Along at h
    unfold exec at he
    split at he
    . next s₁ hs => exact ih (h.2 s₁ hs) he
    . cases he

theorem Along.and {good good' : σ → α → Prop} {s : σ} {as : List α} (h : Along step good s as)
    (h' : Along step good' s as) : Along step (fun s a => good s a ∧ good' s a) s as := by
  induction as generalizing s with
  | nil => trivial
  | cons a as ih =>
    unfold Along at h h' ⊢
    constructor
    . exact ⟨h.1, h'.1⟩
    . intro s' hs
      exact ih (h.2 s' hs) (h'.2 s' hs)

theorem Along.of_forall {good : σ → α → Prop} {as : List α} (h : ∀ a ∈ as, ∀ s, good s a) (s : σ)
    : Along step good s as := by
  induction as generalizing s with
  | nil => trivial
  | cons a as ih =>
    refine ⟨h a List.mem_cons_self s, ?_⟩
    intro s' _
    apply ih
    intro b hb
    exact h b (List.mem_cons_of_mem a hb)

theorem exec_inv {good : σ → α → Prop} {p : σ → Prop}
    (hstep : ∀ s a s', p s → good s a → step s a = some s' → p s') {s s' : σ} {as : List α}
    (hs : p s) (ha : Along step good s as) (he : exec step s as = some s') : p s' := by
  induction as generalizing s with
  | nil =>
    cases he
    exact hs
  | cons a as ih =>
    unfold Along at ha
    unfold exec at he
    split at he
    . next s₁ h₁ => exact ih (hstep s a s₁ hs ha.1 h₁) (ha.2 s₁ h₁) he
    . cases he

theorem exec_keeps {p : σ → Prop} (hstep : ∀ s a s', p s → step s a = some s' → p s') {s s' : σ}
    {as : List α} (hs : p s) (he : exec step s as = some s') : p s' := by
  have halong : Along step (fun _ _ => True) s as := Along.of_forall (fun _ _ _ => trivial) s
  apply exec_inv _ hs halong he
  intro s a s' hp _ hnext
  exact hstep s a s' hp hnext

/--
The system that takes only the steps that `good` allows.
-/
def restrict (step : σ → α → Option σ) (good : σ → α → Prop) [∀ s a, Decidable (good s a)] (s : σ) (a : α) : Option σ :=
  if good s a then step s a else none

theorem restrict_eq_some {good : σ → α → Prop} [∀ s a, Decidable (good s a)] {s s' : σ} {a : α}
    : restrict step good s a = some s' ↔ good s a ∧ step s a = some s' := by
  unfold restrict
  split
  . next hgood => exact ⟨fun h => ⟨hgood, h⟩, fun h => h.2⟩
  . next hgood => exact ⟨nofun, fun h => absurd h.1 hgood⟩

theorem exec_restrict {good : σ → α → Prop} [∀ s a, Decidable (good s a)] {s s' : σ} {as : List α}
    : exec (restrict step good) s as = some s' ↔ Along step good s as ∧ exec step s as = some s' := by
  induction as generalizing s with
  | nil => exact ⟨fun h => ⟨trivial, h⟩, fun h => h.2⟩
  | cons a as ih =>
    constructor
    . intro h
      unfold exec at h
      split at h
      . next s₁ hs =>
        obtain ⟨hgood, hs⟩ := restrict_eq_some.1 hs
        obtain ⟨halong, hexec⟩ := ih.1 h
        constructor
        . refine ⟨hgood, ?_⟩
          intro s₂ hs₂
          rw [hs, Option.some_inj] at hs₂
          rw [← hs₂]
          exact halong
        . unfold exec
          rw [hs]
          exact hexec
      . cases h
    . intro h
      obtain ⟨⟨hgood, hrest⟩, hexec⟩ := h
      unfold exec at hexec
      split at hexec
      . next s₁ hs =>
        unfold exec
        rw [restrict_eq_some.2 ⟨hgood, hs⟩]
        exact ih.2 ⟨hrest s₁ hs, hexec⟩
      . cases hexec

theorem exec_congr {step' : σ → α → Option σ} {as : List α} (h : ∀ a ∈ as, ∀ s, step' s a = step s a) (s : σ)
    : exec step' s as = exec step s as := by
  induction as generalizing s with
  | nil => rfl
  | cons a as ih =>
    unfold exec
    rw [h a List.mem_cons_self s]
    cases step s a with
    | none => rfl
    | some s' => exact ih (fun b hb => h b (List.mem_cons_of_mem a hb)) s'

def Reaches (step : σ → α → Option σ) (s s' : σ) : Prop := ∃ as, exec step s as = some s'

theorem Reaches.refl (s : σ) : Reaches step s s := ⟨[], rfl⟩

theorem Reaches.head {s s₁ s' : σ} {a : α} (hstep : step s a = some s₁) (h : Reaches step s₁ s')
    : Reaches step s s' := by
  cases h with
  | intro as hrun =>
    refine ⟨a :: as, ?_⟩
    unfold exec
    rw [hstep]
    exact hrun

theorem Reaches.trans {s s₁ s' : σ} (h : Reaches step s s₁) (h' : Reaches step s₁ s')
    : Reaches step s s' := by
  cases h with
  | intro as hrun =>
    cases h' with
    | intro bs hrun' =>
      refine ⟨as ++ bs, ?_⟩
      rw [exec_append, hrun]
      exact hrun'

theorem Reaches.of_step {s s' : σ} {a : α} (h : step s a = some s') : Reaches step s s' := ⟨[a], exec_singleton h⟩

theorem Reaches.keeps {p : σ → Prop} (hstep : ∀ s a s', p s → step s a = some s' → p s') {s s' : σ} (h : p s)
    (hreaches : Reaches step s s') : p s' := by
  obtain ⟨as, hexec⟩ := hreaches
  exact exec_keeps hstep h hexec

theorem Reaches.of_restrict {good : σ → α → Prop} [∀ s a, Decidable (good s a)] {s s' : σ}
    (h : Reaches (restrict step good) s s') : Reaches step s s' := by
  apply h.keeps (p := Reaches step s) ?_ (Reaches.refl s)
  intro s₁ a s₂ hreaches hs
  exact hreaches.trans (Reaches.of_step (restrict_eq_some.1 hs).2)

/--
If each step that `good` allows is matched by steps of another system, so is each run of them.
-/
theorem simulates {τ β : Type} {step' : τ → β → Option τ} {sim : σ → τ → Prop} {good : σ → α → Prop}
    (hstep : ∀ s t a s', sim s t → good s a → step s a = some s' → ∃ t', Reaches step' t t' ∧ sim s' t')
    {s s' : σ} {t : τ} {as : List α} (hsim : sim s t) (halong : Along step good s as) (hexec : exec step s as = some s')
    : ∃ t', Reaches step' t t' ∧ sim s' t' := by
  have hinv : ∀ s a s', (∃ t', Reaches step' t t' ∧ sim s t') → good s a → step s a = some s' →
      ∃ t', Reaches step' t t' ∧ sim s' t' := by
    intro s a s' h hgood hs
    obtain ⟨t₁, hreaches, hsim₁⟩ := h
    obtain ⟨t₂, hreaches', hsim₂⟩ := hstep s t₁ a s' hsim₁ hgood hs
    exact ⟨t₂, hreaches.trans hreaches', hsim₂⟩
  exact exec_inv hinv ⟨t, Reaches.refl t, hsim⟩ halong hexec

theorem exec_total (f : σ → α → σ) (s : σ) (as : List α)
    : exec (fun s a => some (f s a)) s as = some (as.foldl f s) := by
  induction as generalizing s with
  | nil => rfl
  | cons a as ih => exact ih (f s a)

/--
A property that a step keeps exactly if it is taken under the side condition holds along a run exactly if all its
steps are.
-/
theorem exec_iff {p : σ → Prop} {good : σ → α → Prop}
    (hgood : ∀ s a s', p s → step s a = some s' → (p s' ↔ good s a)) (hnone : ∀ s a, step s a = none → good s a)
    {s : σ} (hs : p s) (l : List α)
    : (∀ pre, pre <+: l → ∀ s', exec step s pre = some s' → p s') ↔ Along step good s l := by
  induction l generalizing s with
  | nil =>
    constructor
    . intro _
      trivial
    . intro _ pre hpre s' hrun
      rw [List.prefix_nil.1 hpre] at hrun
      cases hrun
      exact hs
  | cons a l ih =>
    cases hstep : step s a with
    | none =>
      constructor
      . intro _
        refine ⟨hnone s a hstep, ?_⟩
        intro s' hs'
        rw [hstep] at hs'
        cases hs'
      . intro _ pre hpre s' hrun
        cases pre with
        | nil =>
          cases hrun
          exact hs
        | cons b pre =>
          have hcons := List.cons_prefix_cons.1 hpre
          rw [hcons.1, exec, hstep] at hrun
          cases hrun
    | some s₁ =>
      have hexec : ∀ pre, exec step s (a :: pre) = exec step s₁ pre := by
        intro pre
        rw [exec, hstep]
      constructor
      . intro h
        have hnext : p s₁ := h [a] ⟨l, rfl⟩ s₁ (hexec [])
        refine ⟨(hgood s a s₁ hs hstep).1 hnext, ?_⟩
        intro s' hs'
        rw [hstep] at hs'
        cases hs'
        apply (ih hnext).1
        intro pre hpre s' hrun
        apply h (a :: pre)
        . exact (List.prefix_cons_inj a).2 hpre
        . rw [hexec]
          exact hrun
      . intro h pre hpre s' hrun
        have hnext : p s₁ := (hgood s a s₁ hs hstep).2 h.1
        cases pre with
        | nil =>
          cases hrun
          exact hs
        | cons b pre =>
          have hcons := List.cons_prefix_cons.1 hpre
          rw [hcons.1, hexec] at hrun
          exact (ih hnext).2 (h.2 s₁ hstep) pre hcons.2 s' hrun

theorem along_iff {f : σ → α → σ} {p : σ → Prop} {good : σ → α → Prop}
    (hgood : ∀ s a, p s → (p (f s a) ↔ good s a)) {s : σ} (hs : p s) (l : List α)
    : (∀ pre, pre <+: l → p (pre.foldl f s)) ↔ Along (fun s a => some (f s a)) good s l := by
  have hstep : ∀ s a s', p s → some (f s a) = some s' → (p s' ↔ good s a) := by
    intro s a s' hp heq
    cases heq
    exact hgood s a hp
  have hiff := @exec_iff σ α (fun s a => some (f s a)) p good hstep (by simp) s hs l
  rw [← hiff]
  constructor
  . intro h pre hpre s' hrun
    rw [exec_total] at hrun
    cases hrun
    exact h pre hpre
  . intro h pre hpre
    exact h pre hpre _ (exec_total f s pre)

theorem stable_iff {f : σ → α → σ} {p : σ → Prop} {good : σ → α → Prop}
    (hgood : ∀ s a, p s → (p (f s a) ↔ good s a)) (s : σ) (l : List α)
    : (∀ as bs cs, l = as ++ bs ++ cs → p (as.foldl f s) → p ((as ++ bs).foldl f s)) ↔
        ∀ as a cs, l = as ++ a :: cs → p (as.foldl f s) → good (as.foldl f s) a := by
  constructor
  . intro h as a cs hl hp
    have hnext := h as [a] cs (by simpa using hl) hp
    rw [List.foldl_append] at hnext
    exact (hgood _ a hp).1 hnext
  . intro h as bs cs hl hp
    induction bs generalizing as with
    | nil =>
      rw [List.append_nil]
      exact hp
    | cons b bs ih =>
      have hb : p ((as ++ [b]).foldl f s) := by
        rw [List.foldl_append]
        apply (hgood _ b hp).2
        apply h as b (bs ++ cs)
        . simpa using hl
        . exact hp
      have hrest := ih (as ++ [b]) (by simpa using hl) hb
      simpa using hrest

theorem along_forall {f : σ → α → σ} {good : α → Prop} {s : σ} {as : List α}
    : Along (fun s a => some (f s a)) (fun _ a => good a) s as ↔ ∀ a ∈ as, good a := by
  induction as generalizing s with
  | nil => simp [Along]
  | cons a as ih =>
    unfold Along
    rw [List.forall_mem_cons]
    constructor
    . intro h
      exact ⟨h.1, ih.1 (h.2 _ rfl)⟩
    . intro h
      refine ⟨h.1, ?_⟩
      intro s' _
      exact ih.2 h.2

theorem along_iff_prefix {f : σ → α → σ} {good : σ → α → Prop} {s : σ} {as : List α}
    : Along (fun s a => some (f s a)) good s as ↔ ∀ pre a, pre ++ [a] <+: as → good (pre.foldl f s) a := by
  induction as generalizing s with
  | nil => simp [Along]
  | cons b as ih =>
    constructor
    . intro h pre a hpre
      cases pre with
      | nil =>
        have heq := (List.cons_prefix_cons.1 hpre).1
        subst heq
        exact h.1
      | cons c pre =>
        have hcons := List.cons_prefix_cons.1 hpre
        have heq := hcons.1
        subst heq
        exact ih.1 (h.2 _ rfl) pre a hcons.2
    . intro h
      refine ⟨h [] b (by simp), ?_⟩
      intro s' hs'
      cases hs'
      apply ih.2
      intro pre a hpre
      apply h (b :: pre) a
      rw [List.cons_append]
      exact (List.prefix_cons_inj b).2 hpre

end Run
