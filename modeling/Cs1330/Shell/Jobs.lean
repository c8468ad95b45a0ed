import Mathlib.Data.List.Nodup
import Cs1330.Lib.CString

/-!
# The job list

`jobs.c`. The elements are linked in the order of the list; `current` is the address of an
element, and a use of it when no such element is left is an error of the model. An address is
not given out twice. `malloc` does not fail and the list is never `NULL`.
-/

namespace Cs1330.Shell

inductive ProcessState where
  | running | stopped
  deriving DecidableEq, Repr

structure Job where
  address : Nat
  jid : Int
  pid : Int
  state : ProcessState
  command : CString
  deriving DecidableEq, Repr

structure JobList where
  elements : List Job
  current : Option Nat
  /-- how many elements were allocated -/
  allocated : Nat
  deriving DecidableEq, Repr

/-- The element `current` points to was freed. -/
structure Dangling where
  address : Nat
  deriving DecidableEq, Repr

namespace JobList

def pids (l : JobList) : List Int := l.elements.map (·.pid)

def jids (l : JobList) : List Int := l.elements.map (·.jid)

def init : JobList := ⟨[], none, 0⟩

def addJob (l : JobList) (jid pid : Int) (state : ProcessState) (command : CString) : JobList :=
  let new : Job := ⟨l.allocated, jid, pid, state, command⟩
  match l.elements with
  | [] => { elements := [new], current := some new.address, allocated := l.allocated + 1 }
  | _ :: _ => { l with elements := l.elements ++ [new], allocated := l.allocated + 1 }

/-- The loop of `remove_job_jid` and `remove_job_pid`. -/
def removeFirst (l : JobList) (found : Job → Bool) : JobList × Int :=
  match l.elements.dropWhile fun job => !found job with
  | [] => (l, -1)
  | cur :: rest =>
    ({ l with
        elements := (l.elements.takeWhile fun job => !found job) ++ rest
        current := if l.current = some cur.address then rest.head?.map (·.address) else l.current }, 0)

def removeJobJid (l : JobList) (jid : Int) : JobList × Int := l.removeFirst (·.jid == jid)

def removeJobPid (l : JobList) (pid : Int) : JobList × Int := l.removeFirst (·.pid == pid)

/-- The loop of `update_job_jid` and `update_job_pid`. -/
def updateElements (found : Job → Bool) (state : ProcessState) : List Job → List Job × Int
  | [] => ([], -1)
  | cur :: rest =>
    if found cur then ({ cur with state := state } :: rest, 0)
    else ((cur :: (updateElements found state rest).1), (updateElements found state rest).2)

def updateFirst (l : JobList) (found : Job → Bool) (state : ProcessState) : JobList × Int :=
  ({ l with elements := (updateElements found state l.elements).1 }, (updateElements found state l.elements).2)

def updateJobJid (l : JobList) (jid : Int) (state : ProcessState) : JobList × Int :=
  l.updateFirst (·.jid == jid) state

def updateJobPid (l : JobList) (pid : Int) (state : ProcessState) : JobList × Int :=
  l.updateFirst (·.pid == pid) state

def getJobPid (l : JobList) (jid : Int) : Int :=
  match l.elements.find? (·.jid == jid) with
  | some cur => cur.pid
  | none => -1

def getJobJid (l : JobList) (pid : Int) : Int :=
  match l.elements.find? (·.pid == pid) with
  | some cur => cur.jid
  | none => -1

def getNextPid (l : JobList) : Except Dangling (Int × JobList) :=
  match l.current with
  | none => .ok (-1, { l with current := l.elements.head?.map (·.address) })
  | some address =>
    match l.elements.dropWhile fun job => job.address != address with
    | [] => .error ⟨address⟩
    | cur :: rest => .ok (cur.pid, { l with current := rest.head?.map (·.address) })

/-- A line of `jobs`. -/
def describe (job : Job) : CString :=
  let state := match job.state with
    | .running => "Running"
    | .stopped => "Stopped"
  text s!"[{job.jid}] ({job.pid}) {state} " ++ job.command ++ text "\n"

/-! ### Process ids -/

section

variable {l : JobList} {jid pid : Int} {state : ProcessState} {command : CString}

theorem pids_init : init.pids = [] := rfl

@[simp] theorem pids_addJob : (l.addJob jid pid state command).pids = l.pids ++ [pid] := by
  unfold addJob
  split
  · rename_i empty
    simp [pids, empty]
  · simp [pids]

theorem elements_removeFirst (found : Job → Bool) : (l.removeFirst found).1.elements = l.elements.eraseP found := by
  have removed : ∀ jobs : List Job, jobs.eraseP found = (jobs.takeWhile fun job => !found job) ++
      (jobs.dropWhile fun job => !found job).tail := by
    intro jobs
    induction jobs with
    | nil => rfl
    | cons cur rest ih =>
      by_cases first : found cur = true
      · simp [first]
      · simp [first, ih]
  rw [removed]
  unfold removeFirst
  split
  · rename_i nothing
    have all := List.takeWhile_append_dropWhile (p := fun job => !found job) (l := l.elements)
    rw [nothing, List.append_nil] at all
    simp [nothing, all]
  · rename_i cur rest tail
    simp [tail]

@[simp] theorem pids_removeJobPid : (l.removeJobPid pid).1.pids = l.pids.erase pid := by
  unfold pids removeJobPid
  rw [elements_removeFirst, List.erase_eq_eraseP', List.eraseP_map]
  rfl

@[simp] theorem pids_updateJobPid : (l.updateJobPid pid state).1.pids = l.pids := by
  have kept : ∀ (found : Job → Bool) (jobs : List Job),
      (updateElements found state jobs).1.map (·.pid) = jobs.map (·.pid) := by
    intro found jobs
    induction jobs with
    | nil => rfl
    | cons cur rest ih =>
      unfold updateElements
      split
      · rfl
      · simp [ih]
  exact kept _ _

theorem getJobPid_mem (listed : jid ∈ l.jids) : l.getJobPid jid ∈ l.pids := by
  unfold getJobPid
  split
  · rename_i cur found
    exact List.mem_map_of_mem (List.mem_of_find?_eq_some found)
  · rename_i missing
    obtain ⟨job, member, same⟩ := List.mem_map.mp listed
    have different := List.find?_eq_none.mp missing job member
    simp [same] at different

end

end JobList

end Cs1330.Shell
