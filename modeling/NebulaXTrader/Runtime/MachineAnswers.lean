import NebulaXTrader.Runtime.MachineBooks

/-!
This module contains the theorem that the books which the threads build together answer like those of a single consumer.
-/

namespace NebulaXTrader

namespace Machine

def single (pool index : Nat) (evs : List MarketEvent) : OrderBookConsumer × OrderStore :=
  evs.foldl OrderBookConsumer.deliver (Workers.initSingle pool index)

variable {loc : Nat → Nat} {evs : List MarketEvent}

theorem fresh_locate (hloc : ∀ ev ∈ evs, ∀ r ∈ ev.body.refs, loc r = ev.locate)
    (hfresh : Run.Along (fun (rb : RefBook) ev => some (rb.onEvent ev.body)) (fun rb ev => rb.Fresh ev.body) [] evs)
    (l : Nat)
    : Run.Along (fun lg ev => some (Split.advance lg ev)) (fun lg ev => (lg.getD .empty).Fresh ev.body) none
        (evs.filter (fun ev => ev.locate = l)) := by
  have hinit : Tracks ((none : Option Ledger).getD .empty).orders [] := Tracks.init
  apply Split.fresh_along hinit
  exact RefBook.fresh_filter l hloc (fun _ _ => rfl) hfresh

theorem Inv.split {k pool index : Nat} {messages : List Message} {s : Machine} (hinv : s.Inv k pool index messages)
    (hk' : k < 64) (h0 : 0 < pool) (h : pool ≤ noIdx) (h0' : 0 < index) (h' : index ≤ noIdx)
    (hloc : ∀ ev ∈ events messages, ∀ r ∈ ev.body.refs, loc r = ev.locate)
    (hfresh : Run.Along (fun (rb : RefBook) ev => some (rb.onEvent ev.body)) (fun rb ev => rb.Fresh ev.body) []
      (events messages))
    : Split loc s.workers.store (fun l => (s.workers.consumers (s.registry.owner l)).books l)
        (fun l => Ledger.ofEvents none s.log l) := by
  have hdelivered := Run.exec_restrict.1 hinv.workers
  rw [Run.exec_total, Option.some_inj] at hdelivered
  obtain ⟨halong, hworkers⟩ := hdelivered
  have hlocLog : ∀ ev ∈ s.log, ∀ r ∈ ev.body.refs, loc r = ev.locate :=
    fun ev hev => hloc ev ((hinv.given_prefix hk').subset (hinv.mem_given hev))
  have hfreshLog : ∀ l, Run.Along (fun lg ev => some (Split.advance lg ev)) (fun lg ev => (lg.getD .empty).Fresh ev.body)
      none (s.log.filter (fun ev => ev.locate = l)) := by
    intro l
    obtain ⟨rest, hrest⟩ := hinv.log_prefix hk' l
    have hall := fresh_locate hloc hfresh l
    rw [← hrest] at hall
    exact hall.append_left
  have hsplit := Split.run Workers.store (fun w l => (w.consumers (s.registry.owner l)).books l)
    (Workers.deliver_step s.registry.owner) (Split.init loc h0 h h0' h') hlocLog halong hfreshLog
  rw [hworkers] at hsplit
  exact hsplit

variable {k pool index pool' index' : Nat} {messages : List Message} {s : Machine}

def addMessage (seq locate ref : UInt8) : Message where
  seq := seq.toNat
  body := [65, 0, locate] ++ List.replicate 15 0 ++ [ref, 66, 0, 0, 0, 7] ++ List.replicate 8 32 ++ [0, 0, 195, 80]
  seq_lt := seq.toNat_lt.trans (by decide)
  body_pos := by simp
  body_le := by simp

/--
The second message is processed first, by the second worker.
-/
def swapped : List Action :=
  List.replicate 6 .receive ++ List.replicate 26 .parse ++ List.replicate 5 (.work 1) ++ List.replicate 5 (.work 0)

end Machine

end NebulaXTrader
