import NebulaXTrader.Lib.Run
import NebulaXTrader.Lib.Window
import NebulaXTrader.Market.SideContext

/-!
This module contains the order flow that the events of a worker cause in its books, and the theorem when the
order flow imbalance is the flow of the last events.
-/

namespace NebulaXTrader

namespace OrderFlowImbalanceStrategy

/--
`l` are the contributions of the events that entered the window, the newest one first.
-/
structure Windowed (s : OrderFlowImbalanceStrategy) (l : List Int) : Prop where
  widx : s.widx = l.length
  win : Window.Holds kWindow s.win l
  ofi : s.ofi = (l.take kWindow).sum

variable {s : OrderFlowImbalanceStrategy} {l : List Int}

theorem Windowed.init : Windowed {} [] := by
  constructor
  . rfl
  . exact Window.Holds.nil
  . rfl

theorem Windowed.onEvent (h : Windowed s l) (ev : MarketEvent) (side : OrderSide)
    : Windowed (s.onEvent ev side) (delta ev.body side :: l) := by
  have hk : 0 < kWindow := by decide
  constructor
  . show s.widx + 1 = _
    rw [h.widx, List.length_cons]
  . show Window.Holds kWindow (Function.update s.win (s.widx % kWindow) (delta ev.body side)) _
    rw [h.widx]
    exact h.win.push _
  . show (if s.widx < kWindow then s.ofi else s.ofi - s.win (s.widx % kWindow)) + delta ev.body side = _
    rw [h.widx, h.ofi]
    by_cases hlen : l.length < kWindow
    . rw [if_pos hlen, Window.sum_push _ hlen]
    . have hfull : kWindow ≤ l.length := Nat.not_lt.1 hlen
      rw [if_neg hlen, Window.sum_shift _ hk hfull, h.win.oldest hk hfull]

def counted (b : MarketEvent.Body) (side : OrderSide) : Option Int :=
  if side = .NONE then none else some (delta b side)

theorem Windowed.onMarket (h : Windowed s l) (ev : MarketEvent) (ctx : BookContext)
    : Windowed (s.onMarket ev ctx) ((counted ev.body ctx.side).toList ++ l) := by
  have hprice : ∀ s' : OrderFlowImbalanceStrategy, ∀ l', Windowed s' l' →
      Windowed (if ctx.bid ≥ 0 ∧ ctx.ask ≥ 0 then { s' with lastPrice := ctx.mid } else s') l' := by
    intro s' l' h'
    split
    . exact ⟨h'.widx, h'.win, h'.ofi⟩
    . exact h'
  unfold OrderFlowImbalanceStrategy.onMarket counted
  by_cases hside : ctx.side = .NONE
  . rw [if_pos hside, if_neg (not_not.2 hside)]
    exact hprice s l h
  . rw [if_neg hside, if_pos hside]
    exact hprice _ _ (h.onEvent ev ctx.side)

end OrderFlowImbalanceStrategy

namespace OrderBook

open OrderFlowImbalanceStrategy (counted delta)

/--
The flow of an event that takes `n` shares of an order: not more than are left of it are taken, and the book stays
as it is if none are.
-/
def reducedFlow (bk : OrderBook) (ref n : Nat) : Option Int :=
  (bk.get ref).bind (fun v =>
    if n = 0 ∧ 0 < v.remaining then none else some (-(v.side.sign * (min n v.remaining : Nat))))

/--
The signed size change that an event causes in the book before it, `none` if it does not change the book: size
added to the bid or taken from the ask counts as positive.
-/
def flow (bk : OrderBook) (b : MarketEvent.Body) : Option Int :=
  match b with
  | .ADD o => if bk.pool.allocate.isSome then some (o.side.sign * o.shares) else none
  | .DELETE o => (bk.get o.orderRef).map (fun v => -(v.side.sign * v.remaining))
  | .CANCEL o => bk.reducedFlow o.orderRef o.shares
  -- the new shares are added where what is left of the old ones is taken
  | .REPLACE o => (bk.get o.orderRef).map (fun v => v.side.sign * (o.shares - v.remaining))
  | .TRADE t | .EXECUTE t => bk.reducedFlow t.orderRef t.volume

/--
The order keeps some of its shares, or an older one under the same reference makes up for it.
-/
def ReducesTrue (bk : OrderBook) (ref n : Nat) : Prop :=
  ∀ v ∈ bk.get ref,
    if n < v.remaining then 0 < n else ∃ side ∈ bk.nextSide ref, side.sign * n = v.side.sign * v.remaining

/--
The events that are measured as the flow that they cause.
-/
def Measured (bk : OrderBook) (b : MarketEvent.Body) : Prop :=
  match b with
  | .ADD _ => bk.pool.allocate.isSome
  | .DELETE o => ∀ v ∈ bk.get o.orderRef, v.remaining = 0 ∧ (bk.nextSide o.orderRef).isSome
  | .CANCEL o => bk.ReducesTrue o.orderRef o.shares
  | .REPLACE o => ∃ v ∈ bk.get o.orderRef, v.side.sign * (o.shares - v.remaining) = o.shares
  | .TRADE t | .EXECUTE t => bk.ReducesTrue t.orderRef t.volume

instance (bk : OrderBook) (ref n : Nat) : Decidable (bk.ReducesTrue ref n) :=
  inferInstanceAs (Decidable (∀ v ∈ bk.get ref, if n < v.remaining then _ else _))

instance (bk : OrderBook) (b : MarketEvent.Body) : Decidable (bk.Measured b) :=
  match b with
  | .ADD _ => inferInstanceAs (Decidable (bk.pool.allocate.isSome = true))
  | .DELETE o => inferInstanceAs (Decidable (∀ v ∈ bk.get o.orderRef, _ ∧ _))
  | .CANCEL o => inferInstanceAs (Decidable (bk.ReducesTrue o.orderRef o.shares))
  | .REPLACE o => inferInstanceAs (Decidable (∃ v ∈ bk.get o.orderRef, _ = _))
  | .TRADE t | .EXECUTE t => inferInstanceAs (Decidable (bk.ReducesTrue t.orderRef t.volume))

variable {bk : OrderBook}

theorem nextSide_ne_none (h : bk.store.Sound) {ref : Nat} {side : OrderSide} (hside : side ∈ bk.nextSide ref)
    : side ≠ .NONE := by
  obtain ⟨s, hs, rfl⟩ := Option.map_eq_some_iff.1 hside
  exact h.side ref s (List.mem_of_mem_tail (List.mem_of_mem_head? hs))

theorem remove_sideOf (h : bk.store.Sound) {ref : Nat} {v : OrderSlotView} (hv : bk.get ref = some v)
    : (bk.remove ref).1.sideOf ref = (bk.nextSide ref).getD .NONE := by
  obtain ⟨s, hs, _⟩ := Option.map_eq_some_iff.1 hv
  obtain ⟨hsides, hindex⟩ := bk.remove_store hs
  exact sideOf_erased h hsides hindex

theorem reduce_sideOf (h : bk.store.Sound) {ref : Nat} {v : OrderSlotView} (hv : bk.get ref = some v) (n : Nat)
    : (bk.reduce ref n).1.sideOf ref =
      if n < v.remaining then v.side else (bk.nextSide ref).getD .NONE := by
  obtain ⟨s, hs, rfl⟩ := Option.map_eq_some_iff.1 hv
  obtain ⟨hsides, hindex⟩ := bk.reduce_store n hs
  show _ = if n < (bk.pool.storage s).remaining then (bk.pool.storage s).side else _
  by_cases hlt : n < (bk.pool.storage s).remaining
  . rw [if_pos hlt] at hindex
    have hfind : (bk.reduce ref n).1.index.find ref = some s := by
      rw [show (bk.reduce ref n).1.index = bk.index from hindex]
      exact hs
    rw [sideOf_of_find hfind, if_pos hlt]
    exact hsides s
  . rw [if_neg hlt] at hindex
    rw [sideOf_erased h hsides hindex, if_neg hlt]

theorem find_of_get_none {ref : Nat} (hv : bk.get ref = none) : bk.index.find ref = none :=
  Option.map_eq_none_iff.1 hv

theorem sideOf_of_get_none {ref : Nat} (hv : bk.get ref = none) : bk.sideOf ref = .NONE := by
  unfold sideOf
  rw [find_of_get_none hv]

theorem delta_taken {side : OrderSide} (hside : side ≠ .NONE) (n : Nat)
    : (if side = .BUY then -(n : Int) else n) = -(side.sign * n) := by
  cases side with
  | BUY => simp [OrderSide.sign]
  | SELL => simp [OrderSide.sign]
  | NONE => exact absurd rfl hside

theorem delta_added {side : OrderSide} (hside : side ≠ .NONE) (n : Nat)
    : (if side = .BUY then (n : Int) else -n) = side.sign * n := by
  cases side with
  | BUY => simp [OrderSide.sign]
  | SELL => simp [OrderSide.sign]
  | NONE => exact absurd rfl hside

theorem sign_mul_eq_zero {side : OrderSide} (hside : side ≠ .NONE) (n : Nat) : side.sign * n = 0 ↔ n = 0 := by
  cases side with
  | BUY => simp [OrderSide.sign]
  | SELL => simp [OrderSide.sign]
  | NONE => exact absurd rfl hside

theorem reduce_counted_iff (h : bk.store.Sound) {b : MarketEvent.Body} {n : Nat}
    (hb : ∀ side, delta b side = if side = .BUY then -(n : Int) else n) (ref : Nat)
    : counted b ((bk.reduce ref n).1.sideOf ref) = bk.reducedFlow ref n ↔ bk.ReducesTrue ref n := by
  unfold reducedFlow ReducesTrue counted
  cases hv : bk.get ref with
  | none =>
    rw [bk.reduce_unknown n (find_of_get_none hv), sideOf_of_get_none hv]
    simp
  | some v =>
    rw [reduce_sideOf h hv]
    simp only [Option.bind_some, Option.mem_some_iff, forall_eq']
    by_cases hlt : n < v.remaining
    . have hside := side_of_get h hv
      rw [if_pos hlt, if_pos hlt, if_neg hside, hb, delta_taken hside, Nat.min_eq_left (Nat.le_of_lt hlt)]
      by_cases hn : n = 0
      . rw [if_pos ⟨hn, by omega⟩]
        simp [hn]
      . rw [if_neg (fun hand => hn hand.1)]
        simp [Nat.pos_of_ne_zero hn]
    . have htaken : ¬(n = 0 ∧ 0 < v.remaining) := by omega
      rw [if_neg hlt, if_neg hlt, if_neg htaken, Nat.min_eq_right (Nat.not_lt.1 hlt)]
      cases hnext : bk.nextSide ref with
      | none => simp
      | some side =>
        have hside := nextSide_ne_none h hnext
        rw [Option.getD_some, if_neg hside, hb, delta_taken hside]
        simp

end OrderBook

theorem MarketEvent.Parsed.delete {ev : MarketEvent} (h : ev.Parsed) {o : MarketEvent.Order}
    (ho : ev.body = .DELETE o) : o.shares = 0 := by
  obtain ⟨msg, seq, hfeed⟩ := h
  unfold ItchParser.feed at hfeed
  split at hfeed
  . cases hfeed
  . split at hfeed
    all_goals
      first
      | cases hfeed
      | simp only [ItchParser.parseA, ItchParser.parseD, ItchParser.parseX, ItchParser.parseU, ItchParser.parseP,
          ItchParser.parseE, ItchParser.parseC, Option.ite_none_left_eq_some, Option.some.injEq] at hfeed
        rw [← hfeed.2] at ho
        cases ho
    rfl

namespace OrderBook

open OrderFlowImbalanceStrategy (counted delta)

variable {bk : OrderBook}

theorem counted_iff (h : bk.store.Sound) {ev : MarketEvent} (hev : ev.Parsed)
    : counted ev.body (bk.sideAfter ev.body) = bk.flow ev.body ↔ bk.Measured ev.body := by
  unfold sideAfter flow Measured
  cases hb : ev.body with
  | ADD o =>
    have hside := hev.side.1 o hb
    dsimp only
    unfold counted delta
    rw [if_neg hside]
    dsimp only
    rw [delta_added hside]
    cases bk.pool.allocate.isSome with
    | false => simp
    | true => simp
  | DELETE o =>
    have hzero := hev.delete hb
    dsimp only
    cases hv : bk.get o.orderRef with
    | none =>
      rw [bk.remove_unknown (find_of_get_none hv), sideOf_of_get_none hv]
      simp [counted]
    | some v =>
      have hside := side_of_get h hv
      rw [remove_sideOf h hv]
      unfold counted delta
      cases hnext : bk.nextSide o.orderRef with
      | none => simp
      | some side =>
        rw [Option.getD_some, if_neg (nextSide_ne_none h hnext)]
        dsimp only
        rw [hzero]
        simp [eq_comm (a := (0 : Int)), sign_mul_eq_zero hside]
  | CANCEL o => exact reduce_counted_iff h (fun _ => rfl) o.orderRef
  | REPLACE o =>
    have hbuy := hev.side.2 o hb
    dsimp only
    unfold counted delta
    rw [hbuy]
    cases hv : bk.get o.orderRef with
    | none => simp
    | some v => simp [eq_comm]
  | TRADE t => exact reduce_counted_iff h (fun _ => rfl) t.orderRef
  | EXECUTE t => exact reduce_counted_iff h (fun _ => rfl) t.orderRef

end OrderBook

namespace BookWorkers

open OrderFlowImbalanceStrategy (counted Windowed kWindow)

def Measured (s : BookWorkers) (a : Input) : Prop := (s.bookBefore a).Measured a.event.body

instance (s : BookWorkers) (a : Input) : Decidable (s.Measured a) :=
  inferInstanceAs (Decidable ((s.bookBefore a).Measured a.event.body))

def flows (cfg : BookWorker.Config) (i : Nat) (s : BookWorkers) (run : List Input) : List Int :=
  match run with
  | [] => []
  | a :: run =>
    flows cfg i (s.process cfg a) run ++
      if a.worker = i then ((s.bookBefore a).flow a.event.body).toList else []

theorem process_ofi (cfg : BookWorker.Config) (s : BookWorkers) (a : Input)
    : ((s.process cfg a).workers a.worker).ofi =
      (s.workers a.worker).ofi.onMarket a.event (s.context cfg a) := by
  have harbitrate : ∀ (w : BookWorker) (position : Nat → Nat), (w.arbitrate cfg position).1.ofi = w.ofi := by
    intro w position
    unfold BookWorker.arbitrate
    split
    . rfl
    . dsimp only
      split
      . split
        . rfl
        . rfl
      . rfl
  have hworker : (s.process cfg a).workers a.worker =
      ((s.workers a.worker).process cfg s.store a.event a.position).1 := Function.update_self _ _ _
  rw [hworker]
  exact harbitrate _ a.position

theorem process_other (cfg : BookWorker.Config) (s : BookWorkers) (a : Input) {i : Nat} (h : i ≠ a.worker)
    : (s.process cfg a).workers i = s.workers i := Function.update_of_ne h _ _

theorem process_windowed (cfg : BookWorker.Config) (s : BookWorkers) (a : Input) (h : s.store.Sound)
    (ha : a.event.Parsed) (hm : s.Measured a) {i : Nat} {l : List Int} (hl : Windowed (s.workers i).ofi l)
    : Windowed ((s.process cfg a).workers i).ofi
        ((if a.worker = i then ((s.bookBefore a).flow a.event.body).toList else []) ++ l) := by
  by_cases hi : a.worker = i
  . subst hi
    have hbook : (s.bookBefore a).store.Sound := h
    have hside : (s.context cfg a).side = (s.bookBefore a).sideAfter a.event.body :=
      BookWorker.process_side cfg (s.workers a.worker) s.store a.event a.position
    have hcounted : counted a.event.body (s.context cfg a).side = (s.bookBefore a).flow a.event.body := by
      rw [hside]
      exact (OrderBook.counted_iff hbook ha).2 hm
    rw [if_pos rfl, process_ofi, ← hcounted]
    exact hl.onMarket a.event (s.context cfg a)
  . rw [if_neg hi, process_other cfg s a (fun heq => hi heq.symm)]
    exact hl

theorem run_windowed (cfg : BookWorker.Config) (run : List Input) (i : Nat) {s : BookWorkers} (h : s.store.Sound)
    (hrun : ∀ a ∈ run, a.event.Parsed)
    (hm : Run.Along (fun s a => some (process cfg s a)) Measured s run) {l : List Int}
    (hl : Windowed (s.workers i).ofi l)
    : Windowed ((run.foldl (process cfg) s).workers i).ofi (flows cfg i s run ++ l) := by
  induction run generalizing s l with
  | nil => exact hl
  | cons a run ih =>
    have ha : a.event.Parsed := hrun a List.mem_cons_self
    have hnext := process_windowed cfg s a h ha hm.1 hl
    rw [flows, List.append_assoc, List.foldl_cons]
    apply ih
    . exact process_sound cfg s a h ha
    . intro b hb
      exact hrun b (List.mem_cons_of_mem a hb)
    . exact hm.2 _ rfl
    . exact hnext

/--
In every run of measured events, the order flow imbalance of a worker is the flow of the last 1024 events that
changed one of its books.
-/
theorem ofi_eq_flow (cfg : BookWorker.Config) (pool index : Nat) (h0 : 2 ≤ index) (hidx : index ≤ 2 ^ 31)
    (run : List Input) (hrun : ∀ a ∈ run, a.event.Parsed)
    (hm : Run.Along (fun s a => some (process cfg s a)) Measured (init pool index) run) (i : Nat)
    : ((run.foldl (process cfg) (init pool index)).workers i).ofi.ofi =
      ((flows cfg i (init pool index) run).take kWindow).sum := by
  have hwindowed := run_windowed cfg run i (OrderStore.Sound.init (Nat.zero_lt_of_lt h0) (OrderMap.le_noIdx hidx)) hrun hm Windowed.init
  rw [List.append_nil] at hwindowed
  exact hwindowed.ofi

def executeSell : Input where
  worker := 0
  event := {
    seqId := 2
    locate := 1
    timestamp := 0
    body := .EXECUTE { side := .NONE, price := -1, volume := 40, orderRef := 7 }
  }
  position _ := 0

theorem executeSell_parsed : executeSell.event.Parsed :=
  ⟨[69, 0, 1, 0, 0, 0, 0, 0, 0, 0, 0, 0, 0, 0, 0, 0, 0, 0, 7, 0, 0, 0, 40, 0, 0, 0, 0, 0, 0, 0, 0], 2,
    by decide⟩

theorem ofi_eq_flow_execute
    : (([addSell, executeSell].foldl (process { maxPosition := 1000, baseQty := 100 }) (init 4 4)).workers
        0).ofi.ofi =
      ((flows { maxPosition := 1000, baseQty := 100 } 0 (init 4 4) [addSell, executeSell]).take kWindow).sum := by
  apply ofi_eq_flow
  . decide
  . decide
  . intro a ha
    simp only [List.mem_cons, List.not_mem_nil, or_false] at ha
    cases ha with
    | inl hadd =>
      rw [hadd]
      exact addSell_parsed
    | inr hexecute =>
      rw [hexecute]
      exact executeSell_parsed
  . decide +kernel

theorem not_ofi_eq_flow
    : ¬∀ (cfg : BookWorker.Config) (pool index : Nat), 2 ≤ index → index ≤ 2 ^ 31 →
        ∀ run : List Input, (∀ a ∈ run, a.event.Parsed) → ∀ i : Nat,
          ((run.foldl (process cfg) (init pool index)).workers i).ofi.ofi =
            ((flows cfg i (init pool index) run).take kWindow).sum := by
  -- The deletion of an order does not enter the window.
  intro h
  have hparsed : ∀ a ∈ [addSell, deleteSell], a.event.Parsed := by
    intro a ha
    simp only [List.mem_cons, List.not_mem_nil, or_false] at ha
    cases ha with
    | inl hadd =>
      rw [hadd]
      exact addSell_parsed
    | inr hdelete =>
      rw [hdelete]
      exact deleteSell_parsed
  have hofi := h { maxPosition := 1000, baseQty := 100 } 4 4 (by decide) (by decide) _ hparsed 0
  revert hofi
  decide +kernel

end BookWorkers

end NebulaXTrader
