import NebulaXTrader.Execution.Lemmas.OrderCodec
import NebulaXTrader.Lib.Run

/-!
This module contains the book queries of the execution engine as messages between the engine and the exchange,
and the theorem when a query gets the answer to its own `Q`.
-/

namespace NebulaXTrader

namespace BookQuery

open OuchOrderCodec (bookFor encodeBookQuery decodeBookQuery encodeBook decodeBook)

/--
A `Q` that was sent and what became of it: the `B` of the exchange, whether it was handed to the engine, whether the
timeout of the query has passed, and what `query_book` has returned.
-/
structure Query where
  symbolId : Nat
  request : List UInt8
  answer : Option (List UInt8) := none
  delivered : Bool := false
  expired : Bool := false
  inTime : Bool := false
  outcome : Option (Option BookQuote) := none

/--
The place in `query_book` of the thread that holds `query_mtx_`.
-/
inductive Caller where
  | idle
  | armed (symbolId : Nat)
  | waiting (id : Nat)
  deriving DecidableEq

structure State where
  bookWaiting : Bool := false
  bookResult : BookQuote := {}
  caller : Caller := .idle
  sent : Nat := 0
  queries : Nat → Option Query := fun _ => none
  deliveries : List Nat := []

inductive Label where
  | call (symbolId : Nat)
  | send
  | sendFails
  | wake
  | timeout
  | expire (id : Nat)
  | answer (id : Nat) (bid : Int) (bidVol : Nat) (ask : Int) (askVol : Nat)
  | deliver (id : Nat)

variable (s : State)

def State.setQuery (id : Nat) (q : Query) : State :=
  { s with queries := Function.update s.queries id (some q) }

def onBookQuote (quote : BookQuote) : State := { s with bookResult := quote, bookWaiting := false }

def finish (id : Nat) (q : Query) (out : Option BookQuote) : State :=
  { s.setQuery id { q with outcome := some out } with caller := .idle }

def call (symbolId : Nat) : Option State :=
  match s.caller with
  | .idle => some { s with bookWaiting := true, caller := .armed symbolId }
  | _ => none

def send : Option State :=
  match s.caller with
  | .armed symbolId =>
    let q : Query := { symbolId := symbolId, request := encodeBookQuery symbolId }
    some { s.setQuery s.sent q with caller := .waiting s.sent, sent := s.sent + 1 }
  | _ => none

def sendFails : Option State :=
  match s.caller with
  | .armed _ => some { s with bookWaiting := false, caller := .idle }
  | _ => none

/--
The thread holds `book_mu_` in `wait_for` and finds the flag cleared.
-/
def wake : Option State :=
  match s.caller with
  | .waiting id =>
    if s.bookWaiting then
      none
    else
      (s.queries id).map (fun q =>
        -- a quote of another symbol is dropped
        finish s id q (if s.bookResult.symbolId ≠ q.symbolId then none else some s.bookResult))
  | _ => none

def timeout : Option State :=
  match s.caller with
  | .waiting id =>
    (s.queries id).bind (fun q =>
      if s.bookWaiting ∧ q.expired then some (finish { s with bookWaiting := false } id q none) else none)
  | _ => none

def expire (id : Nat) : Option State :=
  (s.queries id).map (fun q => s.setQuery id { q with expired := true })

def answer (id : Nat) (bid : Int) (bidVol : Nat) (ask : Int) (askVol : Nat) : Option State :=
  (s.queries id).bind (fun q =>
    match q.answer with
    | some _ => none
    | none =>
      (decodeBookQuery q.request).map (fun symbolId =>
        s.setQuery id { q with answer := some (encodeBook symbolId bid bidVol ask askVol) }))

def deliver (id : Nat) : Option State :=
  (s.queries id).bind (fun q =>
    match q.answer with
    | some frame =>
      if q.delivered then
        none
      else
        let s := { s.setQuery id { q with delivered := true, inTime := !q.expired } with
          deliveries := id :: s.deliveries }
        match decodeBook frame with
        | some quote => some (onBookQuote s quote)
        | none => some s
    | none => none)

def step (l : Label) : Option State :=
  match l with
  | .call symbolId => call s symbolId
  | .send => send s
  | .sendFails => sendFails s
  | .wake => wake s
  | .timeout => timeout s
  | .expire id => expire s id
  | .answer id bid bidVol ask askVol => answer s id bid bidVol ask askVol
  | .deliver id => deliver s id

/--
What a query returns is the quote that was sent in answer to it. If the answer came in time, it does not return
false, and as long as it has not returned nothing but waking up remains to be done.
-/
structure Served (id : Nat) (q : Query) : Prop where
  own : ∀ out, q.outcome = some (some out) → q.answer.bind decodeBook = some out
  inTime : q.inTime → q.outcome ≠ some none ∧
    (q.outcome = none → s.caller = .waiting id ∧ ∃ s', step s .wake = some s')

/--
A query wakes up when the last `B` was its own, or not its own but of another symbol and its own has not come in
time. A `B` that comes in time finds its query waiting, and the name of its symbol has at most ten digits.
-/
def Careful (l : Label) : Prop :=
  match l with
  | .wake =>
    match s.caller with
    | .waiting id => ∀ q ∈ s.queries id,
      s.deliveries.head? = some id ∨ s.bookResult.symbolId ≠ q.symbolId ∧ ¬q.inTime
    | _ => True
  | .deliver id => ∀ q ∈ s.queries id, ¬q.expired → s.caller = .waiting id ∧ q.symbolId < 10 ^ 10
  | _ => True

instance (l : Label) : Decidable (Careful s l) :=
  match l with
  | .wake =>
    match h : s.caller with
    | .waiting id => decidable_of_iff (∀ q ∈ s.queries id,
        s.deliveries.head? = some id ∨ s.bookResult.symbolId ≠ q.symbolId ∧ ¬q.inTime) (by simp only [Careful, h])
    | .idle | .armed _ => isTrue (by simp only [Careful, h])
  | .deliver id => inferInstanceAs (Decidable (∀ q ∈ s.queries id, ¬q.expired → _ ∧ _))
  | .call _ | .send | .sendFails | .timeout | .expire _ | .answer .. => isTrue trivial

/-!
The invariant of the runs whose steps are all careful.
-/

structure Tracked (caller : Caller) (bookWaiting : Bool) (id : Nat) (q : Query) : Prop where
  request : q.request = encodeBookQuery q.symbolId
  answer : ∀ frame, q.answer = some frame →
    ∃ quote, decodeBook frame = some quote ∧ quote.symbolId = strtoull (bookFor q.symbolId)
  waiting : q.outcome = none → caller = .waiting id
  own : ∀ out, q.outcome = some (some out) → q.answer.bind decodeBook = some out
  fits : q.inTime → q.symbolId < 10 ^ 10
  inTime : q.inTime → q.outcome ≠ some none
  cleared : q.inTime → q.outcome = none → bookWaiting = false

structure Inv : Prop where
  tracked : ∀ id q, s.queries id = some q → Tracked s.caller s.bookWaiting id q
  fresh : ∀ id, s.sent ≤ id → s.queries id = none
  waiting : ∀ id, s.caller = .waiting id → ∃ q, s.queries id = some q ∧ q.outcome = none
  result : ∀ id, s.deliveries.head? = some id →
    ∃ q, s.queries id = some q ∧ q.answer.bind decodeBook = some s.bookResult

theorem Inv.start : Inv {} := by
  constructor
  . intro id q hq
    cases hq
  . intro id _
    rfl
  . intro id hid
    cases hid
  . intro id hid
    cases hid

variable {s} {id : Nat} {q q' : Query} {s' : State}

theorem Inv.served (h : Inv s) (hq : s.queries id = some q) : Served s id q := by
  have htracked := h.tracked id q hq
  constructor
  . exact htracked.own
  . intro hin
    refine ⟨htracked.inTime hin, ?_⟩
    intro hout
    have hwait := htracked.waiting hout
    have hclear := htracked.cleared hin hout
    refine ⟨hwait, ?_⟩
    unfold step wake
    simp [hwait, hclear, hq]

theorem setQuery_queries : (s.setQuery id q).queries id = some q := by
  simp [State.setQuery]

theorem setQuery_of_ne {id' : Nat} (h : id' ≠ id) : (s.setQuery id q).queries id' = s.queries id' := by
  simp [State.setQuery, h]

theorem Inv.setQuery (h : Inv s) (hq : s.queries id = some q) (hq' : Tracked s.caller s.bookWaiting id q')
    (hout : q'.outcome = q.outcome) (hans : ∀ frame, q.answer = some frame → q'.answer = some frame)
    : Inv (s.setQuery id q') := by
  constructor
  . intro i x hx
    by_cases hi : i = id
    . subst hi
      rw [setQuery_queries] at hx
      cases hx
      exact hq'
    . rw [setQuery_of_ne hi] at hx
      exact h.tracked i x hx
  . intro i hi
    have hnone := h.fresh i hi
    have hne : i ≠ id := by
      intro heq
      rw [heq, hq] at hnone
      cases hnone
    rw [setQuery_of_ne hne]
    exact hnone
  . intro i hi
    obtain ⟨x, hx, hnone⟩ := h.waiting i hi
    by_cases heq : i = id
    . subst heq
      rw [hq] at hx
      cases hx
      exact ⟨q', setQuery_queries, by rw [hout, hnone]⟩
    . exact ⟨x, by rw [setQuery_of_ne heq, hx], hnone⟩
  . intro i hi
    obtain ⟨x, hx, hresult⟩ := h.result i hi
    by_cases heq : i = id
    . subst heq
      rw [hq] at hx
      cases hx
      refine ⟨q', setQuery_queries, ?_⟩
      obtain ⟨frame, hframe, hdecode⟩ := Option.bind_eq_some_iff.1 hresult
      rw [hans frame hframe]
      exact hdecode
    . exact ⟨x, by rw [setQuery_of_ne heq, hx], hresult⟩

theorem Inv.finish (h : Inv s) (hcaller : s.caller = .waiting id) (hq : s.queries id = some q)
    {out : Option BookQuote} (hout : q.inTime → out.isSome) (hown : ∀ quote, out = some quote →
      q.answer.bind decodeBook = some quote) {bookWaiting : Bool}
    : Inv (finish { s with bookWaiting := bookWaiting } id q out) := by
  have htracked := h.tracked id q hq
  have hqueries : (BookQuery.finish { s with bookWaiting := bookWaiting } id q out).queries =
      (s.setQuery id { q with outcome := some out }).queries := rfl
  constructor
  . intro i x hx
    rw [hqueries] at hx
    by_cases hi : i = id
    . subst hi
      rw [setQuery_queries] at hx
      cases hx
      constructor
      . exact htracked.request
      . exact htracked.answer
      . intro hnone
        cases hnone
      . intro quote hquote
        exact hown quote (Option.some.inj hquote)
      . exact htracked.fits
      . intro hin heq
        have hsome := hout hin
        rw [Option.some.inj heq] at hsome
        cases hsome
      . intro _ hnone
        cases hnone
    . rw [setQuery_of_ne hi] at hx
      have hx' := h.tracked i x hx
      -- only one query waits at a time
      have hover : x.outcome ≠ none := by
        intro hnone
        have hwait := hx'.waiting hnone
        rw [hcaller] at hwait
        cases hwait
        exact hi rfl
      constructor
      . exact hx'.request
      . exact hx'.answer
      . intro hnone
        exact absurd hnone hover
      . exact hx'.own
      . exact hx'.fits
      . exact hx'.inTime
      . intro _ hnone
        exact absurd hnone hover
  . intro i hi
    have hnone := h.fresh i hi
    have hne : i ≠ id := by
      intro heq
      rw [heq, hq] at hnone
      cases hnone
    rw [hqueries, setQuery_of_ne hne]
    exact hnone
  . intro i hi
    cases hi
  . intro i hi
    obtain ⟨x, hx, hresult⟩ := h.result i hi
    rw [hqueries]
    by_cases heq : i = id
    . subst heq
      rw [hq] at hx
      cases hx
      exact ⟨_, setQuery_queries, hresult⟩
    . exact ⟨x, by rw [setQuery_of_ne heq, hx], hresult⟩

theorem Inv.wake (h : Inv s) (hcareful : Careful s .wake) (hstep : wake s = some s') : Inv s' := by
  unfold BookQuery.wake at hstep
  split at hstep
  . next id hcaller =>
    split at hstep
    . cases hstep
    . next hclear =>
      obtain ⟨q, hq, rfl⟩ := Option.map_eq_some_iff.1 hstep
      have htracked := h.tracked id q hq
      unfold Careful at hcareful
      simp only [hcaller] at hcareful
      have hcase := hcareful q hq
      apply Inv.finish h hcaller hq
      . intro hin
        cases hcase with
        | inl hhead =>
          -- the own answer has the symbol of the query
          obtain ⟨x, hx, hresult⟩ := h.result id hhead
          rw [hq] at hx
          cases hx
          obtain ⟨frame, hframe, hdecode⟩ := Option.bind_eq_some_iff.1 hresult
          obtain ⟨quote, hquote, hsymbol⟩ := htracked.answer frame hframe
          rw [hdecode] at hquote
          cases hquote
          have hsame : s.bookResult.symbolId = q.symbolId := by
            rw [hsymbol]
            exact (OuchOrderCodec.strtoull_bookFor q.symbolId).2 (htracked.fits hin)
          rw [if_neg (not_not.2 hsame)]
          rfl
        | inr hother => exact absurd hin hother.2
      . intro quote hquote
        cases hcase with
        | inl hhead =>
          obtain ⟨x, hx, hresult⟩ := h.result id hhead
          rw [hq] at hx
          cases hx
          split at hquote
          . cases hquote
          . cases hquote
            exact hresult
        | inr hother =>
          rw [if_pos hother.1] at hquote
          cases hquote
  . cases hstep

theorem Inv.timeout (h : Inv s) (hstep : timeout s = some s') : Inv s' := by
  unfold BookQuery.timeout at hstep
  split at hstep
  . next id hcaller =>
    obtain ⟨q, hq, hcond⟩ := Option.bind_eq_some_iff.1 hstep
    split at hcond
    . next hwaiting =>
      cases hcond
      have htracked := h.tracked id q hq
      obtain ⟨x, hx, hnone⟩ := h.waiting id hcaller
      rw [hq] at hx
      cases hx
      apply Inv.finish h hcaller hq
      . intro hin
        -- an answer in time has cleared the flag
        have hclear := htracked.cleared hin hnone
        rw [hwaiting.1] at hclear
        cases hclear
      . intro quote hquote
        cases hquote
    . cases hcond
  . cases hstep

theorem Inv.quiet (h : Inv s) (hcaller : ∀ id, s.caller ≠ .waiting id) {caller : Caller}
    (hcaller' : ∀ id, caller ≠ .waiting id) {bookWaiting : Bool}
    : Inv { s with bookWaiting := bookWaiting, caller := caller } := by
  constructor
  . intro id q hq
    have htracked := h.tracked id q hq
    have hover : q.outcome ≠ none := by
      intro hnone
      exact hcaller id (htracked.waiting hnone)
    constructor
    . exact htracked.request
    . exact htracked.answer
    . intro hnone
      exact absurd hnone hover
    . exact htracked.own
    . exact htracked.fits
    . exact htracked.inTime
    . intro _ hnone
      exact absurd hnone hover
  . exact h.fresh
  . intro id hid
    exact absurd hid (hcaller' id)
  . exact h.result

theorem Inv.call (h : Inv s) {symbolId : Nat} (hstep : call s symbolId = some s') : Inv s' := by
  unfold BookQuery.call at hstep
  split at hstep
  . next hcaller =>
    cases hstep
    apply h.quiet
    . intro id hid
      rw [hcaller] at hid
      cases hid
    . intro id hid
      cases hid
  . cases hstep

theorem Inv.sendFails (h : Inv s) (hstep : sendFails s = some s') : Inv s' := by
  unfold BookQuery.sendFails at hstep
  split at hstep
  . next hcaller =>
    cases hstep
    apply h.quiet
    . intro id hid
      rw [hcaller] at hid
      cases hid
    . intro id hid
      cases hid
  . cases hstep

theorem Inv.send (h : Inv s) (hstep : send s = some s') : Inv s' := by
  unfold BookQuery.send at hstep
  split at hstep
  . next symbolId hcaller =>
    have hfresh := h.fresh s.sent (Nat.le_refl _)
    cases hstep
    constructor
    . intro i x hx
      by_cases hi : i = s.sent
      . subst hi
        rw [setQuery_queries] at hx
        cases hx
        constructor
        . rfl
        . intro frame hframe
          cases hframe
        . intro _
          rfl
        . intro out hout
          cases hout
        . intro hin
          cases hin
        . intro hin
          cases hin
        . intro hin
          cases hin
      . rw [setQuery_of_ne hi] at hx
        have htracked := h.tracked i x hx
        have hover : x.outcome ≠ none := by
          intro hnone
          have hwait := htracked.waiting hnone
          rw [hcaller] at hwait
          cases hwait
        constructor
        . exact htracked.request
        . exact htracked.answer
        . intro hnone
          exact absurd hnone hover
        . exact htracked.own
        . exact htracked.fits
        . exact htracked.inTime
        . intro _ hnone
          exact absurd hnone hover
    . intro i hi
      have hle : s.sent + 1 ≤ i := hi
      rw [setQuery_of_ne (by omega)]
      exact h.fresh i (by omega)
    . intro i hi
      cases hi
      exact ⟨_, setQuery_queries, rfl⟩
    . intro i hi
      obtain ⟨x, hx, hresult⟩ := h.result i hi
      have hne : i ≠ s.sent := by
        intro heq
        rw [heq, hfresh] at hx
        cases hx
      exact ⟨x, by rw [setQuery_of_ne hne, hx], hresult⟩
  . cases hstep

theorem Inv.expire (h : Inv s) (hstep : expire s id = some s') : Inv s' := by
  unfold BookQuery.expire at hstep
  obtain ⟨q, hq, rfl⟩ := Option.map_eq_some_iff.1 hstep
  have htracked := h.tracked id q hq
  apply h.setQuery hq
  . exact ⟨htracked.request, htracked.answer, htracked.waiting, htracked.own, htracked.fits, htracked.inTime,
      htracked.cleared⟩
  . rfl
  . intro frame hframe
    exact hframe

theorem Inv.answer (h : Inv s) {bid ask : Int} {bidVol askVol : Nat}
    (hstep : answer s id bid bidVol ask askVol = some s') : Inv s' := by
  unfold BookQuery.answer at hstep
  obtain ⟨q, hq, hcond⟩ := Option.bind_eq_some_iff.1 hstep
  have htracked := h.tracked id q hq
  split at hcond
  . cases hcond
  . next hnone =>
    rw [htracked.request, OuchOrderCodec.decodeBookQuery_encodeBookQuery, Option.map_some] at hcond
    cases hcond
    apply h.setQuery hq
    . constructor
      . rfl
      . intro frame hframe
        cases hframe
        have hdecode := OuchOrderCodec.decodeBook_encodeBook (strtoull (bookFor q.symbolId)) bid bidVol ask askVol
        refine ⟨_, hdecode, ?_⟩
        -- the exchange gives back the name that it has read
        have hname := OuchOrderCodec.strtoull_bookFor q.symbolId
        rw [OuchOrderCodec.quoted_symbolId]
        exact (OuchOrderCodec.strtoull_bookFor (strtoull (bookFor q.symbolId))).2 hname.1
      . exact htracked.waiting
      . intro out hout
        -- no query returns a quote before it is sent
        have hown := htracked.own out hout
        rw [hnone] at hown
        cases hown
      . exact htracked.fits
      . exact htracked.inTime
      . exact htracked.cleared
    . rfl
    . intro frame hframe
      rw [hnone] at hframe
      cases hframe

theorem Inv.onBookQuote (h : Inv s) {quote : BookQuote} (hq : s.queries id = some q)
    (hquote : q.answer.bind decodeBook = some quote)
    : Inv (onBookQuote { s with deliveries := id :: s.deliveries } quote) := by
  constructor
  . intro i x hx
    have htracked := h.tracked i x hx
    constructor
    . exact htracked.request
    . exact htracked.answer
    . exact htracked.waiting
    . exact htracked.own
    . exact htracked.fits
    . exact htracked.inTime
    . intro _ _
      rfl
  . exact h.fresh
  . exact h.waiting
  . intro i hi
    cases hi
    exact ⟨q, hq, hquote⟩

theorem Inv.deliver (h : Inv s) (hcareful : Careful s (.deliver id)) (hstep : deliver s id = some s') : Inv s' := by
  unfold BookQuery.deliver at hstep
  obtain ⟨q, hq, hcond⟩ := Option.bind_eq_some_iff.1 hstep
  have htracked := h.tracked id q hq
  split at hcond
  . next frame hframe =>
    split at hcond
    . cases hcond
    . obtain ⟨quote, hquote, hsymbol⟩ := htracked.answer frame hframe
      have hbind : q.answer.bind decodeBook = some quote := by
        rw [hframe]
        exact hquote
      simp only [hquote] at hcond
      cases hcond
      have hnext := h.onBookQuote hq hbind
      show Inv ((BookQuery.onBookQuote { s with deliveries := id :: s.deliveries } quote).setQuery id
        { q with delivered := true, inTime := !q.expired })
      apply hnext.setQuery hq
      . constructor
        . exact htracked.request
        . exact htracked.answer
        . exact htracked.waiting
        . exact htracked.own
        . intro hin
          have hexpired : ¬q.expired := by simpa using hin
          exact (hcareful q hq hexpired).2
        . intro hin hnone
          have hexpired : ¬q.expired := by simpa using hin
          have hwait := (hcareful q hq hexpired).1
          obtain ⟨x, hx, hrunning⟩ := h.waiting id hwait
          rw [hq] at hx
          cases hx
          rw [hrunning] at hnone
          cases hnone
        . intro _ _
          rfl
      . rfl
      . intro frame' hframe'
        exact hframe'
  . cases hcond

theorem Inv.step {l : Label} (h : Inv s) (hcareful : Careful s l) (hstep : step s l = some s') : Inv s' := by
  cases l with
  | call symbolId => exact h.call hstep
  | send => exact h.send hstep
  | sendFails => exact h.sendFails hstep
  | wake => exact h.wake hcareful hstep
  | timeout => exact h.timeout hstep
  | expire id => exact h.expire hstep
  | answer id bid bidVol ask askVol => exact h.answer hstep
  | deliver id => exact h.deliver hcareful hstep

/--
In every run of careful steps, every query gets the answer to its own `Q`.
-/
theorem answers_own (labels : List Label) (hcareful : Run.Along BookQuery.step Careful {} labels)
    (hrun : Run.exec BookQuery.step {} labels = some s) (hq : s.queries id = some q) : Served s id q := by
  have hinv : Inv s := by
    apply Run.exec_inv _ Inv.start hcareful hrun
    intro t l t' ht hl hstep
    exact ht.step hl hstep
  exact hinv.served hq

theorem answers_own_retry
    : ∃ s q, Run.exec BookQuery.step {}
        [.call 7, .send, .expire 0, .timeout, .answer 0 10000 300 10500 200, .deliver 0,
          .call 7, .send, .answer 1 20000 100 20500 100, .deliver 1, .wake] = some s ∧
      s.queries 1 = some q ∧ Served s 1 q := by
  -- The answer to the first query comes too late, but before the second one is sent.
  generalize hr : Run.exec BookQuery.step {}
    [.call 7, .send, .expire 0, .timeout, .answer 0 10000 300 10500 200, .deliver 0,
      .call 7, .send, .answer 1 20000 100 20500 100, .deliver 1, .wake] = r
  have hend : (r.bind (fun s => s.queries 1)).map (·.inTime) = some true := by
    rw [← hr]
    decide +kernel
  obtain ⟨q, hq, _⟩ := Option.map_eq_some_iff.1 hend
  obtain ⟨s, rfl, hquery⟩ := Option.bind_eq_some_iff.1 hq
  exact ⟨s, q, rfl, hquery, answers_own _ (by decide +kernel) hr hquery⟩

theorem not_answers_own
    : ¬∀ (labels : List Label) (s : State) (id : Nat) (q : Query), Run.exec BookQuery.step {} labels = some s →
        s.queries id = some q → Served s id q := by
  -- The answer to the first query comes while the second one waits.
  intro h
  generalize hr : Run.exec BookQuery.step {}
    [.call 7, .send, .expire 0, .timeout, .call 7, .send, .answer 0 10000 300 10500 200, .deliver 0, .wake,
      .answer 1 20000 100 20500 100] = r
  have hend : (r.bind (fun s => s.queries 1)).map (fun q => (q.outcome, q.answer.bind decodeBook)) =
      some (some (some ⟨7, 10000, 300, 10500, 200⟩), some ⟨7, 20000, 100, 20500, 100⟩) := by
    rw [← hr]
    decide +kernel
  obtain ⟨q, hq, hfields⟩ := Option.map_eq_some_iff.1 hend
  obtain ⟨s, rfl, hquery⟩ := Option.bind_eq_some_iff.1 hq
  simp only [Prod.mk.injEq] at hfields
  have hown := (h _ s 1 q hr hquery).own _ hfields.1
  rw [hfields.2] at hown
  revert hown
  decide

end BookQuery

end NebulaXTrader
