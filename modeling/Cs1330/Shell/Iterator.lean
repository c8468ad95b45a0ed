import Cs1330.Lib.Cursor
import Cs1330.Lib.Transition
import Cs1330.Shell.Jobs

/-!
# The job iterator

`get_next_pid` between any other calls on the list. The list with its `current` is a cursor over
the entries, and every call moves the cursor in one of a few ways.
-/

namespace Cs1330.Shell

namespace JobList

inductive Op where
  | addJob (jid pid : Int) (state : ProcessState) (command : CString)
  | removeJobJid (jid : Int)
  | removeJobPid (pid : Int)
  | updateJobJid (jid : Int) (state : ProcessState)
  | updateJobPid (pid : Int) (state : ProcessState)
  | getNextPid
  deriving DecidableEq, Repr

/-- A call, with the pid that `get_next_pid` returns. -/
def perform (l : JobList) : Op → Except Dangling (Option Int × JobList)
  | .addJob jid pid state command => .ok (none, l.addJob jid pid state command)
  | .removeJobJid jid => .ok (none, (l.removeJobJid jid).1)
  | .removeJobPid pid => .ok (none, (l.removeJobPid pid).1)
  | .updateJobJid jid state => .ok (none, (l.updateJobJid jid state).1)
  | .updateJobPid pid state => .ok (none, (l.updateJobPid pid state).1)
  | .getNextPid => do
    let (pid, l') ← l.getNextPid
    return (some pid, l')

/-- The jobs have distinct pids, none of them -1. -/
def Allowed (l : JobList) : Op → Prop
  | .addJob _ pid _ _ => pid ≠ -1 ∧ pid ∉ l.pids
  | .removeJobJid _ | .removeJobPid _ | .updateJobJid _ _ | .updateJobPid _ _ | .getNextPid => True

instance (l : JobList) : ∀ op, Decidable (l.Allowed op)
  | .addJob _ _ _ _ => inferInstanceAs (Decidable (_ ∧ _))
  | .removeJobJid _ | .removeJobPid _ | .updateJobJid _ _ | .updateJobPid _ _ | .getNextPid =>
    inferInstanceAs (Decidable True)

def step (l : JobList) (op : Op) : Except Dangling (Option JobList) := do
  let (_, l') ← l.perform op
  return some l'

abbrev Reachable : JobList → Prop := Transition.Reachable step init Allowed

/-- Calls one after the other, with the pids that `get_next_pid` returned. -/
inductive Calls : JobList → List Int → JobList → Prop
  | done (l : JobList) : Calls l [] l
  | call {l l' l'' : JobList} {out : Option Int} {outs : List Int} (op : Op) : l.Allowed op →
      l.perform op = .ok (out, l') → Calls l' outs l'' → Calls l (out.toList ++ outs) l''

/-- What stays the same about a job: where it is, and its pid. -/
def entries (l : JobList) : List (Nat × Int) := l.elements.map fun job => (job.address, job.pid)

/-- The pids of the jobs of `l` that are still in `l'`, in the order of `l`. -/
def survivors (l l' : JobList) : List Int := (Cursor.surviving l'.entries l.entries).map Prod.snd

/-! ### The list as a cursor -/

structure Views (l : JobList) (c : Cursor (Nat × Int)) : Prop where
  elements : c.elements = l.entries
  current : l.current = c.ahead.head?.map Prod.fst
  addresses : (c.elements.map Prod.fst).Nodup
  allocated : ∀ e ∈ c.elements, e.1 < l.allocated
  pids : (c.elements.map Prod.snd).Nodup
  positive : ∀ e ∈ c.elements, e.2 ≠ -1

/-- How a call can move the cursor, and the pid it returns; `fresh` is the next address. -/
inductive Move (fresh : Nat) : Cursor (Nat × Int) → Option Int → Cursor (Nat × Int) → Prop
  | stay (c : Cursor (Nat × Int)) : Move fresh c none c
  | add (c : Cursor (Nat × Int)) (pid : Int) : Move fresh c none (c.add (fresh, pid))
  | erase (c : Cursor (Nat × Int)) (e : Nat × Int) : Move fresh c none (c.erase e)
  | advance (passed ahead : List (Nat × Int)) (e : Nat × Int) :
      Move fresh ⟨passed, e :: ahead⟩ (some e.2) ⟨passed ++ [e], ahead⟩
  | restart (passed : List (Nat × Int)) : Move fresh ⟨passed, []⟩ (some (-1)) ⟨[], passed⟩

variable {l l' : JobList} {c c' : Cursor (Nat × Int)}

theorem pids_entries (l : JobList) : l.pids = l.entries.map Prod.snd := by
  unfold pids entries
  rw [List.map_map]
  rfl

theorem views_init : Views init ⟨[], []⟩ :=
  ⟨rfl, rfl, List.nodup_nil, by simp [Cursor.elements], List.nodup_nil, by simp [Cursor.elements]⟩

theorem Views.pids_eq (views : Views l c) : l.pids = c.elements.map Prod.snd := by
  rw [pids_entries, views.elements]

theorem Views.current_mem (views : Views l c) {address : Nat} (current : l.current = some address) :
    ∃ job ∈ l.elements, job.address = address := by
  rw [views.current] at current
  obtain ⟨e, first, rfl⟩ := Option.map_eq_some_iff.mp current
  have member : e ∈ l.entries := by
    rw [← views.elements]
    exact List.mem_append_right _ (List.mem_of_head? first)
  obtain ⟨job, jobMem, rfl⟩ := List.mem_map.mp member
  exact ⟨job, jobMem, rfl⟩

theorem views_addJob (views : Views l c) {jid pid : Int} {state : ProcessState} {command : CString}
    (positive : pid ≠ -1) (fresh : pid ∉ l.pids) : Views (l.addJob jid pid state command) (c.add (l.allocated, pid)) := by
  have entries : (l.addJob jid pid state command).entries = l.entries ++ [(l.allocated, pid)] := by
    unfold addJob JobList.entries
    split
    · rename_i empty
      simp [empty]
    · simp
  have elements := c.elements_add (l.allocated, pid)
  have allocated : (l.addJob jid pid state command).allocated = l.allocated + 1 := by
    unfold addJob
    split <;> rfl
  have unused : l.allocated ∉ c.elements.map Prod.fst := by
    intro member
    obtain ⟨e, eMem, same⟩ := List.mem_map.mp member
    have := views.allocated e eMem
    omega
  rw [views.pids_eq] at fresh
  refine ⟨by rw [elements, entries, views.elements], ?_, ?_, ?_, ?_, ?_⟩
  · have current := views.current
    have whole := views.elements
    obtain ⟨passed, ahead⟩ := c
    unfold addJob
    cases ahead with
    | nil =>
      cases passed with
      | nil =>
        have empty : l.elements = [] := List.map_eq_nil_iff.mp whole.symm
        rw [empty]
        rfl
      | cons e passed =>
        split
        · rename_i empty
          rw [JobList.entries, empty] at whole
          cases whole
        · exact current
    | cons e ahead =>
      split
      · rename_i empty
        rw [JobList.entries, empty] at whole
        exact absurd whole (by simp [Cursor.elements])
      · cases passed <;> exact current
  · have distinct := List.Nodup.concat unused views.addresses
    rw [List.concat_eq_append] at distinct
    rw [elements, List.map_append]
    exact distinct
  · intro e member
    rw [elements] at member
    rw [allocated]
    rcases List.mem_append.mp member with member | member
    · have := views.allocated e member
      omega
    · obtain rfl := List.mem_singleton.mp member
      exact Nat.lt_succ_self _
  · have distinct := List.Nodup.concat fresh views.pids
    rw [List.concat_eq_append] at distinct
    rw [elements, List.map_append]
    exact distinct
  · intro e member
    rw [elements] at member
    rcases List.mem_append.mp member with member | member
    · exact views.positive e member
    · obtain rfl := List.mem_singleton.mp member
      exact positive

/-- Elements that are entries of the old list, with `current` where the cursor is. -/
theorem Views.shrink (views : Views l c) (sublist : c'.elements.Sublist c.elements) (elements : c'.elements = l'.entries)
    (current : l'.current = c'.ahead.head?.map Prod.fst) (allocated : l'.allocated = l.allocated) : Views l' c' :=
  ⟨elements, current, (sublist.map _).nodup views.addresses,
    fun e member => allocated ▸ views.allocated e (sublist.subset member), (sublist.map _).nodup views.pids,
    fun e member => views.positive e (sublist.subset member)⟩

theorem views_erase (views : Views l c) {front back : List (Nat × Int)} {e : Nat × Int} (split : c.elements = front ++ e :: back)
    (entries : l'.entries = front ++ back) (allocated : l'.allocated = l.allocated)
    (current : l'.current = if l.current = some e.1 then back.head?.map Prod.fst else l.current) : Views l' (c.erase e) := by
  obtain ⟨elements, ahead⟩ := Cursor.erase_split (List.Nodup.of_map _ views.addresses) split
  have listed : e ∈ c.elements := by
    rw [split]
    simp
  -- addresses tell the entries apart
  have here : l.current = some e.1 ↔ c.ahead.head? = some e := by
    rw [views.current, Option.map_eq_some_iff]
    constructor
    · intro ⟨f, first, same⟩
      have fMem : f ∈ c.elements := List.mem_append_right _ (List.mem_of_head? first)
      rw [first, List.inj_on_of_nodup_map views.addresses fMem listed same]
    · intro first
      exact ⟨e, first, rfl⟩
  refine views.shrink ?_ (elements.trans entries.symm) ?_ allocated
  · rw [elements, split]
    exact List.Sublist.append_left (List.sublist_cons_self _ _) _
  · rw [current, ahead]
    by_cases first : c.ahead.head? = some e
    · rw [if_pos (here.mpr first), if_pos first]
    · rw [if_neg fun same => first (here.mp same), if_neg first]
      exact views.current

theorem views_removeFirst (views : Views l c) (found : Job → Bool) :
    ∃ c', Views (l.removeFirst found).1 c' ∧ Move l.allocated c none c' := by
  have whole : l.elements.takeWhile (fun job => !found job) ++ l.elements.dropWhile (fun job => !found job) = l.elements :=
    List.takeWhile_append_dropWhile
  unfold removeFirst
  cases tail : l.elements.dropWhile fun job => !found job with
  | nil => exact ⟨c, views, .stay c⟩
  | cons cur rest =>
    rw [tail] at whole
    have split := views.elements
    rw [entries, ← whole, List.map_append, List.map_cons] at split
    refine ⟨c.erase (cur.address, cur.pid), views_erase views split List.map_append rfl ?_, .erase _ _⟩
    show (if l.current = some cur.address then rest.head?.map (·.address) else l.current) = _
    rw [List.head?_map, Option.map_map]
    rfl

theorem views_updateFirst (views : Views l c) (found : Job → Bool) (state : ProcessState) :
    Views (l.updateFirst found state).1 c := by
  have kept : ∀ jobs : List Job, (updateElements found state jobs).1.map (fun job => (job.address, job.pid)) =
      jobs.map fun job => (job.address, job.pid) := by
    intro jobs
    induction jobs with
    | nil => rfl
    | cons cur rest ih =>
      unfold updateElements
      split
      · rfl
      · simp [ih]
  exact views.shrink (List.Sublist.refl _) (views.elements.trans (kept l.elements).symm) views.current rfl

theorem views_getNextPid (views : Views l c) :
    ∃ pid l' c', l.getNextPid = .ok (pid, l') ∧ Views l' c' ∧ Move l.allocated c (some pid) c' ∧
      l'.allocated = l.allocated := by
  have current := views.current
  have whole := views.elements
  obtain ⟨passed, ahead⟩ := c
  unfold getNextPid
  cases ahead with
  | nil =>
    have atEnd : l.current = none := current
    rw [atEnd]
    refine ⟨-1, _, ⟨[], passed⟩, rfl, ?_, .restart passed, rfl⟩
    have elements : passed = l.entries := (List.append_nil passed).symm.trans whole
    refine views.shrink (by simp [Cursor.elements]) elements ?_ rfl
    show l.elements.head?.map (·.address) = passed.head?.map Prod.fst
    rw [elements, entries, List.head?_map, Option.map_map]
    rfl
  | cons e ahead =>
    have here : l.current = some e.1 := current
    rw [here]
    obtain ⟨front, back, listed, frontEntries, backEntries⟩ := List.map_eq_append_iff.mp whole.symm
    obtain ⟨cur, rest, rfl, isCur, restEntries⟩ := List.map_eq_cons_iff.mp backEntries
    have address : cur.address = e.1 := congrArg Prod.fst isCur
    have distinct := views.addresses
    have unseen : ∀ job ∈ front, (job.address != e.1) = true := by
      intro job member
      have passedMem : (job.address, job.pid) ∈ passed := by
        have frontEntries : front.map (fun job => (job.address, job.pid)) = passed := frontEntries
        rw [← frontEntries]
        exact List.mem_map_of_mem (f := fun job : Job => (job.address, job.pid)) member
      have apart := (List.nodup_append.mp (by simpa [Cursor.elements] using distinct)).2.2
      simpa using apart _ (List.mem_map_of_mem passedMem) e.1 List.mem_cons_self
    have found : l.elements.dropWhile (fun job => job.address != e.1) = cur :: rest := by
      rw [listed, List.dropWhile_append_of_pos unseen, List.dropWhile_cons_of_neg (by simp [address])]
    simp only [found]
    refine ⟨cur.pid, _, ⟨passed ++ [e], ahead⟩, rfl, ?_, ?_, rfl⟩
    · refine views.shrink (by simp [Cursor.elements]) ?_ ?_ rfl
      · exact (List.append_assoc passed [e] ahead).trans whole
      · show rest.head?.map (·.address) = ahead.head?.map Prod.fst
        rw [← restEntries, List.head?_map, Option.map_map]
        rfl
    · have pid : cur.pid = e.2 := congrArg Prod.snd isCur
      rw [pid]
      exact .advance passed ahead e

theorem Views.perform (views : Views l c) {op : Op} (allowed : l.Allowed op) :
    ∃ out l' c', l.perform op = .ok (out, l') ∧ Views l' c' ∧ Move l.allocated c out c' ∧ l.allocated ≤ l'.allocated := by
  have removed : ∀ found, (l.removeFirst found).1.allocated = l.allocated := by
    intro found
    unfold removeFirst
    split <;> rfl
  cases op with
  | addJob jid pid state command =>
    refine ⟨none, _, _, rfl, views_addJob views allowed.1 allowed.2, .add c pid, ?_⟩
    unfold addJob
    split <;> exact Nat.le_succ _
  | removeJobJid jid =>
    obtain ⟨c', views', move⟩ := views_removeFirst views (·.jid == jid)
    exact ⟨none, _, c', rfl, views', move, Nat.le_of_eq (removed _).symm⟩
  | removeJobPid pid =>
    obtain ⟨c', views', move⟩ := views_removeFirst views (·.pid == pid)
    exact ⟨none, _, c', rfl, views', move, Nat.le_of_eq (removed _).symm⟩
  | updateJobJid jid state => exact ⟨none, _, c, rfl, views_updateFirst views _ state, .stay c, Nat.le_refl _⟩
  | updateJobPid pid state => exact ⟨none, _, c, rfl, views_updateFirst views _ state, .stay c, Nat.le_refl _⟩
  | getNextPid =>
    obtain ⟨pid, l', c', run, views', move, same⟩ := views_getNextPid views
    refine ⟨some pid, l', c', ?_, views', move, Nat.le_of_eq same.symm⟩
    show (do let (pid, l') ← l.getNextPid; return (some pid, l')) = Except.ok (some pid, l')
    rw [run]
    rfl

/-! ### Runs -/

theorem reachable_views (reachable : Reachable l) : ∃ c, Views l c := by
  apply Transition.Reachable.invariant (P := fun l => ∃ c, Views l c) reachable ⟨_, views_init⟩
  intro l l' op ⟨c, views⟩ allowed run
  obtain ⟨out, next, c', performed, views', _⟩ := views.perform allowed
  unfold step at run
  rw [performed] at run
  obtain rfl := Option.some.inj (Except.ok.inj run)
  exact ⟨c', views'⟩

/-- `get_next_pid` returns -1 at the end only, and another pid is that of a job in the list. -/
theorem Views.next (views : Views l c) {pid : Int} (run : l.getNextPid = .ok (pid, l')) :
    (pid = -1 → c.ahead = [] ∧ Views l' ⟨[], c.passed⟩) ∧ (pid = -1 ∨ pid ∈ l.pids) := by
  obtain ⟨pid', next, c', run', views', move, _⟩ := views_getNextPid views
  obtain ⟨rfl, rfl⟩ := Prod.mk.inj (Except.ok.inj (run.symm.trans run'))
  cases move with
  | advance passed ahead e =>
    have member : e ∈ (⟨passed, e :: ahead⟩ : Cursor (Nat × Int)).elements := by simp [Cursor.elements]
    refine ⟨fun none => (views.positive e member none).elim, Or.inr ?_⟩
    rw [views.pids_eq]
    exact List.mem_map_of_mem member
  | restart passed => exact ⟨fun _ => ⟨rfl, views'⟩, Or.inl rfl⟩

open Cursor (Covers) in
theorem Calls.covers {outs : List Int} {old : List (Nat × Int)} (calls : Calls l outs l') :
    ∀ {c : Cursor (Nat × Int)} {seen : List Int}, Views l c → Covers old Prod.snd seen c →
      (∀ e ∈ old, e.1 < l.allocated) → -1 ∉ outs → ∃ c', Views l' c' ∧ Covers old Prod.snd (seen ++ outs) c' := by
  induction calls with
  | done l =>
    intro c seen views covers _ _
    exact ⟨c, views, by rw [List.append_nil]; exact covers⟩
  | @call l next l' out outs op allowed run later ih =>
    intro c seen views covers early never
    obtain ⟨out', next', c', run', views', move, grows⟩ := views.perform allowed
    obtain ⟨rfl, rfl⟩ := Prod.mk.inj (Except.ok.inj (run.symm.trans run'))
    have step : Covers old Prod.snd (seen ++ out.toList) c' := by
      cases move with
      | stay c => rw [Option.toList_none, List.append_nil]; exact covers
      | add c pid =>
        rw [Option.toList_none, List.append_nil]
        exact covers.add fun member => Nat.lt_irrefl _ (early _ member)
      | erase c e =>
        rw [Option.toList_none, List.append_nil]
        exact covers.erase views.pids
      | advance passed ahead e => exact covers.advance views.pids
      | restart passed => exact (never (List.mem_append_left _ (by simp))).elim
    obtain ⟨c'', final, whole⟩ := ih views' step (fun e member => Nat.lt_of_lt_of_le (early e member) grows)
      fun member => never (List.mem_append_right _ member)
    exact ⟨c'', final, by rw [← List.append_assoc]; exact whole⟩

/-- The iterator is never left at a freed element, returns only jobs of the list, and between two
returns of -1 it returns each job that stays in the list once, in order. -/
theorem iterator_safe (reachable : Reachable l) :
    (∀ address, l.current = some address → ∃ job ∈ l.elements, job.address = address) ∧
      (∀ op, l.Allowed op → ∃ result, l.perform op = .ok result) ∧
      (∀ pid l', l.getNextPid = .ok (pid, l') → pid = -1 ∨ pid ∈ l.pids) ∧
      ∀ l₁ outs l₂ l₃, l.getNextPid = .ok (-1, l₁) → Calls l₁ outs l₂ → -1 ∉ outs → l₂.getNextPid = .ok (-1, l₃) →
        (outs.filter fun pid => decide (pid ∈ survivors l₁ l₂)) = survivors l₁ l₂ ∧ (survivors l₁ l₂).Nodup := by
  obtain ⟨c, views⟩ := reachable_views reachable
  refine ⟨fun address current => views.current_mem current, ?_, fun pid l' run => (views.next run).2, ?_⟩
  · intro op allowed
    obtain ⟨out, l', _, run, _⟩ := views.perform allowed
    exact ⟨_, run⟩
  · intro l₁ outs l₂ l₃ first calls never second
    obtain ⟨_, views₁⟩ := (views.next first).1 rfl
    have old : l₁.entries = c.passed := views₁.elements.symm
    obtain ⟨c₂, views₂, covers⟩ := calls.covers views₁ (Cursor.Covers.start c.passed Prod.snd) views₁.allocated never
    obtain ⟨atEnd, _⟩ := (views₂.next second).1 rfl
    have whole : c₂.passed = l₂.entries := by
      rw [← views₂.elements, Cursor.elements, atEnd, List.append_nil]
    obtain ⟨passed, ahead⟩ := c₂
    obtain rfl : ahead = [] := atEnd
    have distinct : (c.passed.map Prod.snd).Nodup := views₁.pids
    have seen := covers.finish (List.Nodup.of_map _ distinct)
    unfold survivors
    rw [old, ← whole]
    exact ⟨seen, (List.Sublist.map _ List.filter_sublist).nodup distinct⟩

/-- Two jobs, seen to the end. -/
def twoJobs : List Op :=
  [.addJob 1 7 .running [], .addJob 2 8 .running [], .getNextPid, .getNextPid]

/-- While the iterator goes round, one job is removed behind it and one is added. -/
theorem iterator_safe_replaced : ∃ l l₁ l₂ l₃, Reachable l ∧ l.getNextPid = .ok (-1, l₁) ∧ Calls l₁ [7, 8, 9] l₂ ∧
    l₂.getNextPid = .ok (-1, l₃) ∧ survivors l₁ l₂ = [8] ∧
    ([7, 8, 9].filter fun pid => decide (pid ∈ survivors l₁ l₂)) = survivors l₁ l₂ := by
  have found : Transition.follow step Allowed twoJobs init =
      some ⟨[⟨0, 1, 7, .running, []⟩, ⟨1, 2, 8, .running, []⟩], none, 2⟩ := rfl
  have reachable := Transition.follow_reachable .initial found
  have step₁ : perform ⟨[⟨0, 1, 7, .running, []⟩, ⟨1, 2, 8, .running, []⟩], some 0, 2⟩ .getNextPid =
      .ok (some 7, ⟨[⟨0, 1, 7, .running, []⟩, ⟨1, 2, 8, .running, []⟩], some 1, 2⟩) := rfl
  have step₂ : perform ⟨[⟨0, 1, 7, .running, []⟩, ⟨1, 2, 8, .running, []⟩], some 1, 2⟩ (.addJob 3 9 .running []) =
      .ok (none, ⟨[⟨0, 1, 7, .running, []⟩, ⟨1, 2, 8, .running, []⟩, ⟨2, 3, 9, .running, []⟩], some 1, 3⟩) := rfl
  have step₃ : perform ⟨[⟨0, 1, 7, .running, []⟩, ⟨1, 2, 8, .running, []⟩, ⟨2, 3, 9, .running, []⟩], some 1, 3⟩
      (.removeJobPid 7) = .ok (none, ⟨[⟨1, 2, 8, .running, []⟩, ⟨2, 3, 9, .running, []⟩], some 1, 3⟩) := rfl
  have step₄ : perform ⟨[⟨1, 2, 8, .running, []⟩, ⟨2, 3, 9, .running, []⟩], some 1, 3⟩ .getNextPid =
      .ok (some 8, ⟨[⟨1, 2, 8, .running, []⟩, ⟨2, 3, 9, .running, []⟩], some 2, 3⟩) := rfl
  have step₅ : perform ⟨[⟨1, 2, 8, .running, []⟩, ⟨2, 3, 9, .running, []⟩], some 2, 3⟩ .getNextPid =
      .ok (some 9, ⟨[⟨1, 2, 8, .running, []⟩, ⟨2, 3, 9, .running, []⟩], none, 3⟩) := rfl
  have calls : Calls ⟨[⟨0, 1, 7, .running, []⟩, ⟨1, 2, 8, .running, []⟩], some 0, 2⟩ [7, 8, 9]
      ⟨[⟨1, 2, 8, .running, []⟩, ⟨2, 3, 9, .running, []⟩], none, 3⟩ :=
    have fresh : Allowed ⟨[⟨0, 1, 7, .running, []⟩, ⟨1, 2, 8, .running, []⟩], some 1, 2⟩ (.addJob 3 9 .running []) := by decide
    .call .getNextPid trivial step₁ (.call (.addJob 3 9 .running []) fresh step₂ (.call (.removeJobPid 7) trivial step₃
      (.call .getNextPid trivial step₄ (.call .getNextPid trivial step₅ (.done _)))))
  have seen := (iterator_safe reachable).2.2.2 _ _ _ _ rfl calls (by decide) rfl
  exact ⟨_, _, _, _, reachable, rfl, calls, rfl, rfl, seen.1⟩

end JobList

end Cs1330.Shell
