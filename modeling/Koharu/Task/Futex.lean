import Koharu.Arch.Pmap
import Koharu.Task.Ipc

/-!
# The wait queues of futexes

The data of `kernel/task/futex.c`. A futex is a word of memory, named by its physical address. The
threads that sleep on it are on the queue of a `struct futex_waitq`, which is there as long as one
of them is and which is found by way of a hash table.

Wait queues are named by the addresses `kmalloc` gave them.
-/

namespace Koharu

/-- The hash table and the wait queues. -/
structure Futex where
  /-- `futex_buckets`, on which the `hash_node`s are. -/
  buckets : ListStore (BitVec 6) Addr
  /-- `phys` of a `struct futex_waitq`. -/
  phys : Addr → Addr
  /-- `waiters` of a `struct futex_waitq`, on which the `futex_list`s of threads are. -/
  waiters : ListStore Addr Tid

/-- `futex_hash`. -/
def futexHash (phys : Addr) : BitVec 6 := (phys >>> 2).setWidth 6

namespace Futex

/-- The state after `futex_init`. -/
def init : Futex where
  buckets := ListStore.empty
  phys _ := 0
  waiters := ListStore.empty

/-- `futex_find`. -/
def futexFind (s : Futex) (phys : Addr) : Option Addr :=
  (s.buckets.queue (futexHash phys)).find? fun wq => s.phys wq = phys

/-- Set up a `struct futex_waitq` at `wq`. Its queue is made empty by `list_init`, which must not
lose threads. -/
def newWaitq (s : Futex) (wq phys : Addr) : Option Futex := do
  let buckets ← s.buckets.pushBack wq (futexHash phys)
  if s.waiters.queue wq = [] then
    return { s with buckets, phys := Function.update s.phys wq phys }
  else none

/-- The part of `futex_wait` under the lock: the thread goes to the end of the queue for the word.
`ptr` is what `kmalloc` returns when there is no queue yet; without memory there is none. -/
def join (s : Futex) (ptr phys : Addr) (t : Tid) : Option (Option Futex) :=
  match s.futexFind phys with
  | some wq => do
      let waiters ← s.waiters.pushBack t wq
      return some { s with waiters }
  | none =>
      if ptr = 0 then some none
      else do
        let s ← s.newWaitq ptr phys
        let waiters ← s.waiters.pushBack t ptr
        return some { s with waiters }

/-- The end of `futex_wake`: a queue that is empty is removed. -/
def release (s : Futex) (wq : Addr) : Option Futex :=
  if s.waiters.queue wq = [] then do
    let buckets ← s.buckets.unlink wq
    return { s with buckets }
  else some s

end Futex

end Koharu
