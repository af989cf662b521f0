import LispMachine.Memory
import LispMachine.Lib.Ring
import LispMachine.Lib.Run

/-!
The exception FIFO of `datastructures.c`: two ring buffers of tagged items.

Items are added by the interrupt handler, as a whole and at any time; they are popped statement
by statement. The steps of a pop are those of `concurrent_fifo_pop`, with `ring_buf_pop`
written out.
-/

namespace LispMachine.Fifo

open LispMachine.Memory LispMachine.Lib.Run

/-- A ring buffer, with the item size and the capacity of its array. The words are counted from
the array's start. -/
structure RingBuf where
  buf : ℕ → ℕ
  itemSz : ℕ
  capacity : ℕ
  head : ℕ
  tail : ℕ

/-- `ring_buf_isempty` -/
def ringBufIsempty (rb : RingBuf) : Bool := rb.head = rb.tail

/-- `ring_buf_isfull` -/
def ringBufIsfull (rb : RingBuf) : Bool :=
  wadd rb.tail (wsub rb.capacity 1) % rb.capacity = rb.head

/-- The loop that copies an item to `ptr`. -/
def copyItem (buf : ℕ → ℕ) (ptr : ℕ) (item : List ℕ) : ℕ → ℕ → ℕ
  | 0 => buf
  | i + 1 => Function.update (copyItem buf ptr item i) (ptr + i) (item.getD i 0)

/-- `ring_buf_add` -/
def ringBufAdd (rb : RingBuf) (item : List ℕ) : RingBuf :=
  let ptr := rb.itemSz * rb.head
  let buf := copyItem rb.buf ptr item rb.itemSz
  let head := wadd rb.head 1
  { rb with buf := buf, head := if rb.capacity ≤ head then 0 else head }

/-- The two buffers. -/
inductive Which
  | A
  | B
deriving DecidableEq

/-- A concurrent FIFO: the buffers `A` and `B`, `a_lck` and `b_lck`, and the tags. -/
structure ConcurrentFifo where
  ring : Which → RingBuf
  lck : Which → ℕ
  tag : ℕ
  currTag : ℕ

namespace ConcurrentFifo

def setRing (cf : ConcurrentFifo) (b : Which) (rb : RingBuf) : ConcurrentFifo :=
  { cf with ring := Function.update cf.ring b rb }

def setLck (cf : ConcurrentFifo) (b : Which) (v : ℕ) : ConcurrentFifo :=
  { cf with lck := Function.update cf.lck b v }

end ConcurrentFifo

/-- `concurrent_fifo_add`: the FIFO afterwards and the value returned. -/
def concurrentFifoAdd (cf : ConcurrentFifo) (item : List ℕ) : ConcurrentFifo × ℕ :=
  let taggedItem := cf.tag :: item
  let cf := { cf with tag := wadd cf.tag 1 }
  if cf.lck .A = 0 ∧ !ringBufIsfull (cf.ring .A) then
    (cf.setRing .A (ringBufAdd (cf.ring .A) taggedItem), 0)
  else if cf.lck .B = 0 ∧ !ringBufIsfull (cf.ring .B) then
    (cf.setRing .B (ringBufAdd (cf.ring .B) taggedItem), 0)
  else ({ cf with tag := wsub cf.tag 1 }, 1)

/-- Where `concurrent_fifo_pop` is, with its local variables. -/
inductive Pc
  | idle
  | ptrA
  | ptrB (a : ℕ)
  | tag (a b : ℕ)
  | isempty (w : Which) (a b c : ℕ)
  | test (w : Which) (a b c : ℕ)
  | lock (w : Which)
  | enter (w : Which)
  | copy (w : Which) (ptr : ℕ) (tagged : List ℕ)
  | incTail (w : Which) (tagged : List ℕ)
  | wrap (w : Which) (tagged : List ℕ)
  | unlock (w : Which) (tagged : List ℕ)
  | out (tagged item : List ℕ)
  | incTag (item : List ℕ)
  | ret (item : List ℕ)

/-- The address of the buffer's next item. -/
def select : Which → ℕ → ℕ → ℕ
  | .A, a, _ => a
  | .B, _, b => b

/-- Where the pop goes on when the next item is not in the buffer. -/
def other : Which → ℕ → ℕ → ℕ → Pc
  | .A, a, b, c => .isempty .B a b c
  | .B, _, _, _ => .idle

/-- One statement of `concurrent_fifo_pop`. A pop that returns `1` leads to `idle`, and one that
returns `0` to `ret`. -/
def popStep (cf : ConcurrentFifo) : Pc → ConcurrentFifo × Pc
  | .idle => (cf, .ptrA)
  | .ptrA => (cf, .ptrB ((cf.ring .A).itemSz * (cf.ring .A).tail))
  | .ptrB a => (cf, .tag a ((cf.ring .A).itemSz * (cf.ring .B).tail))
  | .tag a b => (cf, .isempty .A a b cf.currTag)
  | .isempty w a b c =>
    (cf, if ringBufIsempty (cf.ring w) then other w a b c else .test w a b c)
  | .test w a b c =>
    (cf, if c = (cf.ring w).buf (select w a b) then .lock w else other w a b c)
  | .lock w => (cf.setLck w 1, .enter w)
  | .enter w => (cf, .copy w ((cf.ring w).itemSz * (cf.ring w).tail) [])
  | .copy w ptr tagged =>
    if tagged.length < (cf.ring w).itemSz then
      (cf, .copy w ptr (tagged ++ [(cf.ring w).buf (ptr + tagged.length)]))
    else (cf, .incTail w tagged)
  | .incTail w tagged =>
    (cf.setRing w { cf.ring w with tail := wadd (cf.ring w).tail 1 }, .wrap w tagged)
  | .wrap w tagged =>
    (cf.setRing w { cf.ring w with
      tail := if (cf.ring w).capacity ≤ (cf.ring w).tail then 0 else (cf.ring w).tail },
      .unlock w tagged)
  | .unlock w tagged => (cf.setLck w 0, .out tagged [])
  | .out tagged item =>
    if item.length + 1 < (cf.ring .A).itemSz then
      (cf, .out tagged (item ++ [tagged.getD (item.length + 1) 0]))
    else (cf, .incTag item)
  | .incTag item => ({ cf with currTag := wadd cf.currTag 1 }, .ret item)
  | .ret _ => (cf, .idle)

/-- The FIFO and the pop that is running, the items whose addition returned `0` and those that
successful pops returned. -/
structure St where
  cf : ConcurrentFifo
  pc : Pc
  added : List (List ℕ)
  popped : List (List ℕ)

/-- The item that is returned from here. -/
def returned : Pc → List (List ℕ)
  | .ret item => [item]
  | _ => []

/-- A statement of the pop, or an interrupt that adds an item of `n` words. -/
inductive Step (n : ℕ) (s : St) : St → Prop
  | pop : Step n s ⟨(popStep s.cf s.pc).1, (popStep s.cf s.pc).2, s.added,
      s.popped ++ returned s.pc⟩
  | add (item : List ℕ) (hn : item.length = n) : Step n s ⟨(concurrentFifoAdd s.cf item).1, s.pc,
      if (concurrentFifoAdd s.cf item).2 = 0 then s.added ++ [item] else s.added, s.popped⟩

/-- `concurrent_fifo` -/
def concurrentFifo (capacity : Which → ℕ) (n : ℕ) (buf : Which → ℕ → ℕ) : ConcurrentFifo :=
  ⟨fun w => ⟨buf w, n + 1, capacity w, 0, 0⟩, fun _ => 0, 0, 0⟩

/-- The FIFO of items of `n` words with the given capacities, which an address space holds. -/
def fifoSystem (capacity : Which → ℕ) (n : ℕ) : System St where
  init s := (∀ w, 1 < capacity w) ∧ capacity .A + capacity .B ≤ addrSpace ∧
    ∃ buf, s = ⟨concurrentFifo capacity n buf, .idle, [], []⟩
  step := Step n

end LispMachine.Fifo
