import Mathlib.Data.List.Induction
import Mathlib.Logic.Function.Basic
import NebulaXTrader.Lib.Run

/-!
This module contains linearizability: the calls that several threads make at once return what a sequential object
returns if each of them takes effect at one moment between its begin and its end. A simulation of the object by the
states of the threads shows it.
-/

namespace Linearization

variable {T O R A : Type}

inductive Event (T O R : Type) where
  | call (t : T) (op : O)
  | ret (t : T) (r : R)
  deriving DecidableEq

/--
`commit` is the moment at which the call of the thread takes effect.
-/
inductive Mark (T O R : Type) where
  | event (e : Event T O R)
  | commit (t : T)

inductive Phase (O R : Type) where
  | idle
  | pending (op : O)
  | done (r : R)
  deriving DecidableEq

/--
A sequential object and what the threads are doing with it.
-/
structure Object (T O R A : Type) where
  phase : T → Phase O R
  value : A

namespace Object

variable [DecidableEq T] [DecidableEq O] [DecidableEq R]

def setPhase (c : Object T O R A) (t : T) (p : Phase O R) : Object T O R A :=
  { c with phase := Function.update c.phase t p }

def step (apply : A → O → R × A) (c : Object T O R A) (m : Mark T O R) : Option (Object T O R A) :=
  match m with
  | .event (.call t op) => if c.phase t = .idle then some (c.setPhase t (.pending op)) else none
  | .event (.ret t r) => if c.phase t = .done r then some (c.setPhase t .idle) else none
  | .commit t =>
    match c.phase t with
    | .pending op =>
      let (r, a) := apply c.value op
      some { phase := Function.update c.phase t (.done r), value := a }
    | _ => none

end Object

def Mark.visible (m : Mark T O R) : Option (Event T O R) :=
  match m with
  | .event e => some e
  | .commit _ => none

/--
Into the history a commit can be put for each call, between the call and its return, so that the object returns the
same.
-/
def Linearizable [DecidableEq T] [DecidableEq O] [DecidableEq R] (apply : A → O → R × A) (a : A)
    (history : List (Event T O R)) : Prop :=
  ∃ marks, marks.filterMap Mark.visible = history ∧
    ∃ c, Run.exec (Object.step apply) { phase := fun _ => .idle, value := a } marks = some c

section

variable {σ α : Type} (step : σ → α → Option σ) (events : σ → α → List (Event T O R))

/--
The calls and the returns along a run.
-/
def history (s : σ) (as : List α) : List (Event T O R) :=
  match as with
  | [] => []
  | a :: as =>
    match step s a with
    | some s' => events s a ++ history s' as
    | none => []

variable {step events}

theorem history_concat {s s₁ s' : σ} {as : List α} {a : α} (hrun : Run.exec step s as = some s₁)
    (hstep : step s₁ a = some s')
    : history step events s (as ++ [a]) = history step events s as ++ events s₁ a := by
  induction as generalizing s with
  | nil =>
    cases hrun
    have hone : history step events s₁ [a] = events s₁ a ++ [] := by
      rw [history, hstep]
      rfl
    rw [List.nil_append, hone]
    exact List.append_nil _
  | cons b as ih =>
    unfold Run.exec at hrun
    split at hrun
    . next s₂ hs₂ =>
      rw [List.cons_append, history, history, hs₂]
      dsimp only
      rw [ih hrun, List.append_assoc]
    . cases hrun

variable [DecidableEq T] [DecidableEq O] [DecidableEq R] {apply : A → O → R × A}

/--
Every step of the system is followed by the object along marks that show the same calls and returns.
-/
def Follows (apply : A → O → R × A) (sim : σ → Object T O R A → Prop) (events : List (Event T O R))
    (c : Object T O R A) (s' : σ) : Prop :=
  ∃ marks, marks.filterMap Mark.visible = events ∧
    ∃ c', Run.exec (Object.step apply) c marks = some c' ∧ sim s' c'

theorem linearizable_of_follows {good : σ → α → Prop} {sim : σ → Object T O R A → Prop}
    (hfollows : ∀ s c a s', sim s c → good s a → step s a = some s' → Follows apply sim (events s a) c s')
    {s s' : σ} {a : A} (hsim : sim s { phase := fun _ => .idle, value := a }) {as : List α}
    (halong : Run.Along step good s as) (hrun : Run.exec step s as = some s')
    : Linearizable apply a (history step events s as) := by
  have hmarks : ∃ marks, marks.filterMap Mark.visible = history step events s as ∧
      ∃ c, Run.exec (Object.step apply) { phase := fun _ => .idle, value := a } marks = some c ∧ sim s' c := by
    induction as using List.reverseRecOn generalizing s' with
    | nil =>
      cases hrun
      exact ⟨[], rfl, _, rfl, hsim⟩
    | append_singleton as b ih =>
      obtain ⟨s₁, hrun₁, hstep⟩ := Run.exec_concat hrun
      obtain ⟨marks, hvisible, c, hexec, hsim₁⟩ := ih halong.append_left hrun₁
      have hgood := (halong.append_right hrun₁).1
      obtain ⟨marks', hvisible', c', hexec', hsim'⟩ := hfollows s₁ c b s' hsim₁ hgood hstep
      refine ⟨marks ++ marks', ?_, c', ?_, hsim'⟩
      . rw [List.filterMap_append, hvisible, hvisible', history_concat hrun₁ hstep]
      . rw [Run.exec_append, hexec]
        exact hexec'
  obtain ⟨marks, hvisible, c, hexec, _⟩ := hmarks
  exact ⟨marks, hvisible, c, hexec⟩

end

section Follow

variable [DecidableEq T] [DecidableEq O] [DecidableEq R] {apply : A → O → R × A} {σ : Type}
  {sim : σ → Object T O R A → Prop} {c : Object T O R A} {s' : σ} {t : T}

theorem follows_silent (hsim : sim s' c) : Follows apply sim [] c s' := ⟨[], rfl, c, rfl, hsim⟩

theorem follows_call {op : O} (hidle : c.phase t = .idle) (hsim : sim s' (c.setPhase t (.pending op)))
    : Follows apply sim [.call t op] c s' :=
  ⟨[.event (.call t op)], rfl, _, Run.exec_singleton (if_pos hidle), hsim⟩

theorem follows_ret {r : R} (hdone : c.phase t = .done r) (hsim : sim s' (c.setPhase t .idle))
    : Follows apply sim [.ret t r] c s' :=
  ⟨[.event (.ret t r)], rfl, _, Run.exec_singleton (if_pos hdone), hsim⟩

theorem follows_commit {op : O} {r : R} {a : A} (hpending : c.phase t = .pending op)
    (happly : apply c.value op = (r, a))
    (hsim : sim s' { phase := Function.update c.phase t (.done r), value := a })
    : Follows apply sim [] c s' := by
  refine ⟨[.commit t], rfl, _, Run.exec_singleton ?_, hsim⟩
  unfold Object.step
  dsimp only
  rw [hpending]
  dsimp only
  rw [happly]

end Follow

end Linearization
