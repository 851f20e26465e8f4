import Xv6.Kthread.Mutex

namespace Xv6

abbrev maxConds : Int := 64

abbrev cUnused : Int := 0
abbrev cUsed : Int := 1

structure KthreadCond where
  status : Int
  sleepingTID : Int → Int
  count : Int
  startIndex : Int
  waitingMutexID : Int

abbrev Ctable := Int → KthreadCond

def kthreadCondAlloc (t : Ctable) : Ctable × Int :=
  match (List.range maxConds.toNat).find? (fun i : Nat => decide ((t i).status = cUnused)) with
  | some i => (Function.update t i ⟨cUsed, fun _ => 0, 0, 0, 0⟩, i)
  | none => (t, -1)

def kthreadCondDealloc (t : Ctable) (condId : Int) : Ctable × Int :=
  if (t condId).status = cUsed then
    (Function.update t condId { t condId with status := cUnused }, 0)
  else (t, -1)

def enqueueCond (c : KthreadCond) (threadId mutexId : Int) : KthreadCond :=
  let destinationIndex := (c.startIndex + c.count).tmod maxThreads
  { c with
    sleepingTID := Function.update c.sleepingTID destinationIndex threadId
    count := c.count + 1
    waitingMutexID := mutexId }

def dequeueCond (c : KthreadCond) : KthreadCond :=
  { c with count := c.count - 1, startIndex := (c.startIndex + 1).tmod maxThreads }

variable {n : Nat}

def kthreadCondWait (ct : Ctable) (mt : Mtable) (pt : Ptable n) (condId mutexId threadId : Int) :
    Option (Ctable × Mtable × Ptable n × Int) :=
  if (ct condId).status = cUsed then
    let u := kthreadMutexUnlock mt pt mutexId threadId
    some (Function.update ct condId (enqueueCond (ct condId) threadId mutexId), u.1, u.2.1, u.2.2)
  else none

def kthreadCondSignal (ct : Ctable) (mt : Mtable) (condId : Int) :
    Option (Ctable × Mtable × Int) :=
  if (ct condId).count ≠ 0 then
    let c := ct condId
    let tidToWakeUp := c.sleepingTID c.startIndex
    let mutexId := c.waitingMutexID
    some (Function.update ct condId (dequeueCond c),
      Function.update mt mutexId { mt mutexId with tid := tidToWakeUp }, tidToWakeUp)
  else none

end Xv6
