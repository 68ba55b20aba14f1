import Mathlib

/-!
# `TaskMgr`

The set of tasks, in its order of iteration, with the objects that the pointers point to and the
mutex. A callback is what it does when it is called now, one action after the other; a `Restart`
comes with what the clock says then. The mutex is not recursive: a call that takes it where it is
held does not return, which is `none`.
-/

namespace HttpNest

abbrev TaskPtr := ℕ

inductive TaskAction
  | restart (nowMS : ℤ)
  | add (task : TaskPtr)
  | del (task : TaskPtr)
  deriving DecidableEq, Repr

/-- An empty `cb_` does nothing. -/
structure Task where
  cb : List TaskAction
  interval : ℤ
  when : ℤ
  deriving DecidableEq, Repr

namespace Task

/-- A sum of two `int64_t`. -/
def sumInt64 (a b : ℤ) : ℤ := (a + b).bmod (2 ^ 64)

def restart (t : Task) (nowMS : ℤ) : Task := { t with when := sumInt64 t.interval nowMS }

end Task

structure TaskMgr where
  tasks : List TaskPtr
  object : TaskPtr → Task
  locked : Bool
  nodup : tasks.Nodup

namespace TaskMgr

/-- `lock_guard`. -/
def lock (m : TaskMgr) : Option TaskMgr := if m.locked then none else some { m with locked := true }

def unlock (m : TaskMgr) : TaskMgr := { m with locked := false }

/-- `tasks_.emplace`, which does nothing where the task is there. -/
def emplace (m : TaskMgr) (task : TaskPtr) : TaskMgr :=
  { m with
    tasks := m.tasks.insert task
    nodup := m.nodup.insert }

def erase (m : TaskMgr) (task : TaskPtr) : TaskMgr :=
  { m with
    tasks := m.tasks.erase task
    nodup := m.nodup.erase task }

def add (m : TaskMgr) (task : TaskPtr) : Option (TaskMgr × Bool) :=
  m.lock.map fun m => if task ∈ m.tasks then (m.unlock, false) else ((m.emplace task).unlock, true)

def del (m : TaskMgr) (task : TaskPtr) : Option (TaskMgr × Bool) :=
  m.lock.map fun m => ((m.erase task).unlock, true)

def setObject (m : TaskMgr) (task : TaskPtr) (object : Task) : TaskMgr :=
  { m with object := Function.update m.object task object }

def restart (m : TaskMgr) (task : TaskPtr) (nowMS : ℤ) : TaskMgr :=
  m.setObject task ((m.object task).restart nowMS)

/-- An action of the callback of `self`. -/
def act (self : TaskPtr) (m : TaskMgr) : TaskAction → Option TaskMgr
  | .restart nowMS => some (m.restart self nowMS)
  | .add task => (m.add task).map Prod.fst
  | .del task => (m.del task).map Prod.fst

def run (m : TaskMgr) (task : TaskPtr) : Option TaskMgr :=
  (m.object task).cb.foldlM (act task) m

/-- The loop of `OnWork` over the tasks that are left, and the tasks that it runs. -/
def workLoop (now : ℤ) : List TaskPtr → TaskMgr → Option (TaskMgr × List TaskPtr)
  | [], m => some (m, [])
  | task :: rest, m =>
    if (m.object task).when < now then
      (m.run task).bind fun m =>
        let m := if (m.object task).when < now then m.erase task else m
        (workLoop now rest m).map fun (m, ran) => (m, task :: ran)
    else workLoop now rest m

def onWork (m : TaskMgr) (now : ℤ) : Option (TaskMgr × List TaskPtr) :=
  m.lock.bind fun m => (workLoop now m.tasks m).map fun (m, ran) => (m.unlock, ran)

end TaskMgr

end HttpNest
