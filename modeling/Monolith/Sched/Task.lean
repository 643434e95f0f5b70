/-!
# Tasks

`sched/task.h`: the status word of a task, and the ways the scheduler and the locks give up.

Only the status is here.  The links of a task (`next`, `queue_node`, `wait`) live in the queues
that use them, and its kernel stack is a program counter of the model at hand.
-/

namespace Monolith

inductive TaskStatus where
  /-- `TASK_RUNNING` -/
  | running
  /-- `TASK_SLEEPING` -/
  | sleeping
  /-- `TASK_INTR_SLEEPING` -/
  | intrSleeping
  /-- `TASK_ZOMBIE` -/
  | zombie
  /-- `TASK_STOPPED` -/
  | stopped
  deriving DecidableEq, Repr

/-- The calls of `panic` in the locks and queues. -/
inductive Panic where
  /-- `mutex_lock` by a task that is neither running nor asleep. -/
  | mutexLock (found : TaskStatus)
  /-- `mutex_unlock` took a task off the wait queue that is not asleep. -/
  | mutexUnlock (found : TaskStatus)
  /-- `sys_exit` by a task that is neither running nor in an interruptible sleep. -/
  | taskExit (found : TaskStatus)
  /-- `schedule` picked a task without a kernel stack. -/
  | noStack
  /-- A blocking loop found its own status neither running nor in an interruptible sleep. -/
  | wqSleep
  /-- `wait_queue_register` of a node that is on another queue. -/
  | wqRegister
  /-- `wait_queue_wake` found a registered task that is not asleep. -/
  | wqWake
  /-- `wait_queue_unregister` of a node that has a queue and is in no list. -/
  | wqUnregister
  deriving DecidableEq, Repr

end Monolith
