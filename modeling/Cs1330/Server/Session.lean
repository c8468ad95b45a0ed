import Cs1330.Db.Expansion
import Cs1330.Server.Lockstep

/-!
# What a client sees

A client that plays a script prints what the map answers, starting from the map that the sessions
before it have left, and leaves the map that its commands make, in whatever order the two sides run.
-/

namespace Cs1330.Connection
open Db

variable {files : CString → Option CString} {qbuf : List UInt8} {script done earlier responses : List CString}
  {s s' : State} {works : Bool} {depth : Nat} {m : Bindings} {store : Store} {call : CString}

/-- The call that has not returned. -/
def State.pending (s : State) : List CString := if s.server = .interpreting then [s.command] else []

/-- The calls that have returned were answered from the map, and the store holds the map that they
have made of it. -/
structure Tracks (files : CString → Option CString) (depth : Nat) (m : Bindings) (done : List CString) (s : State) :
    Prop where
  calls : s.calls = done ++ s.pending
  answers : s.answers = replies files depth m done
  store : ∃ t, Holds s.store t (bindings m (done.flatMap (expand files depth)))
  short : ∀ call ∈ s.calls, call.length ≤ 255

/-! ### Steps -/

theorem Tracks.client (tracks : Tracks files depth m done s) (run : s.runClient = some s') :
    Tracks files depth m done s' := by
  have same : s'.calls = s.calls ∧ s'.pending = s.pending ∧ s'.answers = s.answers ∧ s'.store = s.store := by
    unfold State.runClient at run
    split at run
    · split_ifs at run <;> cases run <;> exact ⟨rfl, rfl, rfl, rfl⟩
    · split_ifs at run <;> cases run <;> exact ⟨rfl, rfl, rfl, rfl⟩
    · cases run
    · cases run
  obtain ⟨calls, pending, answers, store⟩ := same
  exact ⟨by rw [calls, pending, tracks.calls], answers.trans tracks.answers, by rw [store]; exact tracks.store,
    by rw [calls]; exact tracks.short⟩

/-- A call begins, or the calls stay as they are. -/
theorem commServe_calls (run : s.commServe works = some s') :
    s.pending = [] ∧ s'.answers = s.answers ∧ s'.store = s.store ∧
      ∃ news, s'.pending = news ∧ s'.calls = s.calls ++ news ∧ ∀ call ∈ news, call.length ≤ 255 := by
  cases server : s.server with
  | replying =>
    simp only [State.commServe, server] at run
    split_ifs at run <;> cases run <;>
      exact ⟨by simp [State.pending, server], rfl, rfl, [], rfl, (List.append_nil _).symm, by simp⟩
  | reading =>
    have idle : s.pending = [] := by simp [State.pending, server]
    simp only [State.commServe, server] at run
    split_ifs at run <;> cases run
    · exact ⟨idle, rfl, rfl, [], rfl, (List.append_nil _).symm, by simp⟩
    · refine ⟨idle, rfl, rfl, _, rfl, rfl, ?_⟩
      intro call member
      obtain rfl := List.mem_singleton.mp member
      exact Nat.le_trans (List.takeWhile_prefix _).length_le (fgets_length bufLen s.toServer)
    · exact ⟨idle, rfl, rfl, [], rfl, (List.append_nil _).symm, by simp⟩
  | interpreting =>
    simp only [State.commServe, server] at run
    cases run
  | closed =>
    simp only [State.commServe, server] at run
    cases run

theorem Tracks.serve (tracks : Tracks files depth m done s) (run : s.commServe works = some s') :
    Tracks files depth m done s' := by
  obtain ⟨idle, answers, store, news, pending, calls, short⟩ := commServe_calls run
  refine ⟨?_, answers.trans tracks.answers, by rw [store]; exact tracks.store, ?_⟩
  · rw [calls, pending, tracks.calls, idle, List.append_nil]
  · intro call member
    rw [calls] at member
    rcases List.mem_append.mp member with old | new
    · exact tracks.short call old
    · exact short call new

theorem Tracks.interpret {nesting : Nat} (tracks : Tracks files depth m done s)
    (nests : ∀ call ∈ s.calls, Nests files depth call) (run : s.interpret files nesting = .ok (some s')) :
    Tracks files depth m (done ++ [s.command]) s' := by
  obtain ⟨server, response, store, returned, rfl⟩ := interpret_ok run
  have pending : s.pending = [s.command] := if_pos server
  have calls := tracks.calls
  rw [pending] at calls
  have member : s.command ∈ s.calls := by
    rw [calls]
    simp
  obtain ⟨t, holds⟩ := tracks.store
  have returns := nests_of_returns returned
  obtain ⟨s₁, t₁, ran, holds₁⟩ := holds.maps (tracks.short _ member) returns
  obtain ⟨ops, again⟩ := ran s.store.ops
  obtain ⟨rfl, rfl⟩ := Prod.mk.inj (Except.ok.inj (returned.symm.trans again))
  have means : expand files nesting s.command = expand files depth s.command := by
    rcases Nat.le_total nesting depth with less | more
    · exact (returns.expand_eq less).symm
    · exact (nests _ member).expand_eq more
  refine ⟨?_, ?_, ⟨t₁, ?_⟩, tracks.short⟩
  · rw [State.pending, if_neg (by simp), List.append_nil]
    exact calls
  · rw [replies_append, ← tracks.answers]
    rfl
  · rw [List.flatMap_append, bindings_append, List.flatMap_singleton, ← means]
    exact ⟨holds₁.shape.withOps ops, holds₁.mallocs, holds₁.lookup, holds₁.tokens⟩

/-! ### Runs -/

theorem opened_marker (other : ¬IsCommand call) : opened files call = none := by
  cases call with
  | nil => rfl
  | cons c rest =>
    apply if_neg
    rintro ⟨rfl, _⟩
    exact other ⟨rest, by simp⟩

/-- A line that is no command, such as the end marker, does nothing. -/
theorem marker_means (other : ¬IsCommand call) (m : Bindings) (depth : Nat) :
    bindings m (expand files (depth + 1) call) = m := by
  rw [expand, opened_marker other]
  show effect m (parse call) = m
  cases call with
  | nil => rfl
  | cons c rest =>
    have letters : c ≠ byte 'q' ∧ c ≠ byte 'a' ∧ c ≠ byte 'd' := by
      refine ⟨?_, ?_, ?_⟩ <;> rintro rfl <;> exact other ⟨rest, by simp⟩
    rw [parse, if_neg letters.1, if_neg letters.2.1, if_neg letters.2.2, ite_self]
    rfl

theorem Phase.printed_length (phase : Phase qbuf script s) : s.printed.length ≤ script.length := by
  have part : ∀ {done rest : List CString}, script = done ++ rest → done.length ≤ script.length := by
    rintro done rest rfl
    exact (List.prefix_append _ _).length_le
  cases phase with
  | quiet done rest quiet =>
    rw [quiet.printed, List.length_map, quiet.answers]
    exact part quiet.script
  | sent done line rest sent =>
    rw [sent.printed, List.length_map, sent.answers]
    exact Nat.le_trans (List.prefix_append _ _).length_le (part sent.script)
  | working done line rest working =>
    rw [working.printed, List.length_map, working.answers]
    exact Nat.le_trans (List.prefix_append _ _).length_le (part working.script)
  | answered done rest answered =>
    obtain ⟨before, _, printed, count⟩ := answered.behind
    rw [printed, List.length_map]
    exact Nat.le_trans (by omega) (part answered.script)
  | replied done rest replied =>
    obtain ⟨before, _, printed, count⟩ := replied.behind
    rw [printed, List.length_map]
    exact Nat.le_trans (by omega) (part replied.script)
  | leaving leaving => rw [leaving.printed, List.length_map, leaving.answers]
  | ended ended => exact Nat.le_of_eq ended.count

section

variable (lines : ∀ line ∈ script, Line line) (room : qbuf ≠ []) (fits : Fits files qbuf script)
  (nested : ∀ line ∈ script, Nests files (depth + 1) line)

include lines fits nested in
theorem Phase.nests (phase : Phase qbuf script s) : ∀ call ∈ s.calls, Nests files (depth + 1) call := by
  intro call member
  rcases (phase.inStep lines fits).calls with soFar | ⟨last, all, other⟩
  · exact nested call (soFar.subset member)
  · rw [all] at member
    rcases List.mem_append.mp member with line | marker
    · exact nested call line
    · obtain rfl := List.mem_singleton.mp marker
      intro contents opens
      cases (opened_marker other).symm.trans opens

include lines room fits nested in
theorem tracks_reachable {t : KeyTree} (serving : Serving store t m)
    (reachable : Reachable files (.initial script.flatten qbuf store) s) :
    Phase qbuf script s ∧ ∃ done, Tracks files (depth + 1) m done s := by
  apply reachable.invariant
  · have start : Tracks files (depth + 1) m [] (.initial script.flatten qbuf store) :=
      ⟨rfl, rfl, ⟨t, serving.toHolds⟩, by simp [State.initial]⟩
    exact ⟨.quiet [] script (quiet_initial qbuf script ⟨t, m, serving⟩), [], start⟩
  · rintro s s' action ⟨phase, done, tracks⟩ _ run
    refine ⟨phase.step lines room fits run, ?_⟩
    cases action with
    | client => exact ⟨done, tracks.client (Except.ok.inj run)⟩
    | serve works => exact ⟨done, tracks.serve (Except.ok.inj run)⟩
    | interpret depth => exact ⟨_, tracks.interpret (phase.nests lines fits nested) run⟩

end

/-- What the sessions before have left. -/
theorem serving_of_session (short : ∀ command ∈ earlier, command.length < bufLen ∧ 0 ∉ command)
    (before : interpretAll files maxLen depth earlier Store.empty = .ok (responses, store)) :
    ∃ t, Serving store t (bindings (fun _ => none) (earlier.flatMap (expand files depth))) := by
  have fits : ∀ command ∈ earlier, command.length ≤ 255 ∧ 0 ∉ command := fun command member =>
    ⟨Nat.le_of_lt_succ (short command member).1, (short command member).2⟩
  have nests := nests_of_interpretAll before
  obtain ⟨s', t, run, holds⟩ := holds_empty.runs_session fun command member =>
    ⟨(fits command member).1, nests command member⟩
  obtain ⟨ops, again⟩ := run []
  obtain ⟨-, rfl⟩ := Prod.mk.inj (Except.ok.inj (before.symm.trans again))
  obtain ⟨t', m', serving⟩ := serving_empty.interpretAll fits before
  obtain rfl := serving.shape.unique (holds.shape.withOps ops)
  refine ⟨t', ⟨holds.shape.withOps ops, holds.mallocs, holds.lookup, holds.tokens⟩, ?_⟩
  intro k v bound
  exact serving.noNul k v ((serving.lookup k).symm.trans ((holds.lookup k).trans bound))

section

variable (lines : ∀ line ∈ script, Line line) (room : qbuf.length = bufSize) (fits : Fits files qbuf script)
  (nested : ∀ line ∈ script, Nests files (depth + 1) line)

include lines room fits nested in
theorem Reachable.prints {t : KeyTree} (serving : Serving store t m)
    (reachable : Reachable files (.initial script.flatten qbuf store) s) :
    s.printed <+: (replies files (depth + 1) m script).map (· ++ [byte '\n']) ∧
      ((∀ action s', s.step files action ≠ .ok (some s')) →
        s.printed = (replies files (depth + 1) m script).map (· ++ [byte '\n']) ∧
        ∃ t, Holds s.store t (bindings m (script.flatMap (expand files (depth + 1))))) := by
  have nonempty : qbuf ≠ [] := by
    rintro rfl
    cases room
  obtain ⟨phase, done, tracks⟩ := tracks_reachable lines nonempty fits nested serving reachable
  have inStep := phase.inStep lines fits
  have count := phase.printed_length
  have total := replies_length files (depth + 1) m script
  have printed := inStep.printed
  rw [tracks.answers] at printed
  -- The call at the end of the script may have been answered too, but its response is not printed.
  have returned : done <+: script ∨ ∃ last, done = script ++ [last] ∧ ¬IsCommand last := by
    have calls : done <+: s.calls := by
      rw [tracks.calls]
      exact List.prefix_append _ _
    rcases inStep.calls with soFar | ⟨last, all, other⟩
    · exact .inl (calls.trans soFar)
    · rw [all] at calls
      rcases List.prefix_concat_iff.mp calls with every | soFar
      · exact .inr ⟨last, every, other⟩
      · exact .inl soFar
  have isPrefix : s.printed <+: (replies files (depth + 1) m script).map (· ++ [byte '\n']) := by
    rcases returned with ⟨rest, rfl⟩ | ⟨last, rfl, _⟩
    · rw [replies_append, List.map_append]
      exact printed.trans (List.prefix_append _ _)
    · rw [replies_append, List.map_append] at printed
      exact List.prefix_of_prefix_length_le printed (List.prefix_append _ _) (by rwa [List.length_map, total])
  refine ⟨isPrefix, ?_⟩
  intro stuck
  obtain ⟨_, every⟩ := inStep.complete stuck
  refine ⟨isPrefix.eq_of_length (by rw [every, List.length_map, total]), ?_⟩
  have answered := printed.length_le
  rw [List.length_map, replies_length, every] at answered
  obtain ⟨t, holds⟩ := tracks.store
  refine ⟨t, ?_⟩
  rcases returned with soFar | ⟨last, rfl, other⟩
  · rwa [soFar.eq_of_length_le answered] at holds
  · rwa [List.flatMap_append, bindings_append, List.flatMap_singleton, marker_means other] at holds

end

/-- A client that plays a script after some sessions prints the replies of the map that they have
left, line by line, and nothing else, in whatever order the two sides run; once nothing more can
happen it has printed them all, and the tree binds what the script has made of this map. -/
theorem client_prints_replies (lines : ∀ line ∈ script, Line line) (room : qbuf.length = bufSize)
    (fits : Fits files qbuf script) (short : ∀ command ∈ earlier, command.length < bufLen ∧ 0 ∉ command)
    (before : interpretAll files maxLen depth earlier Store.empty = .ok (responses, store)) :
    ∃ enough, ∀ nesting, enough ≤ nesting → ∀ s, Reachable files (.initial script.flatten qbuf store) s →
      s.printed <+: (replies files nesting (bindings (fun _ => none) (earlier.flatMap (expand files depth))) script).map
        (· ++ [byte '\n']) ∧
      ((∀ action s', s.step files action ≠ .ok (some s')) →
        s.printed = (replies files nesting (bindings (fun _ => none) (earlier.flatMap (expand files depth))) script).map
          (· ++ [byte '\n']) ∧
        ∃ t, Shape s.store t ∧ ∀ key, t.lookup key = bindings (fun _ => none)
          (earlier.flatMap (expand files depth) ++ script.flatMap (expand files nesting)) key) := by
  obtain ⟨t, serving⟩ := serving_of_session short before
  obtain ⟨enough, nests⟩ := nests_all fits.nests
  refine ⟨enough + 1, ?_⟩
  intro nesting deep s reachable
  obtain ⟨nesting, rfl⟩ : ∃ k, nesting = k + 1 := ⟨nesting - 1, by omega⟩
  have nested : ∀ line ∈ script, Nests files (nesting + 1) line := fun line member => (nests line member).mono (by omega)
  obtain ⟨soFar, atEnd⟩ := Reachable.prints lines room fits nested serving reachable
  refine ⟨soFar, ?_⟩
  intro stuck
  obtain ⟨all, t', holds⟩ := atEnd stuck
  rw [bindings_append]
  exact ⟨all, t', holds.shape, holds.lookup⟩

/-- A second client reads what the first has added. -/
theorem client_prints_replies_second : ∃ responses store,
    interpretAll (fun _ => none) maxLen 1 [text "a k v\n"] Store.empty = .ok (responses, store) ∧
    ∀ s, Reachable (fun _ => none) (.initial [text "q k\n"].flatten (List.replicate bufSize 0) store) s →
      (∀ action s', s.step (fun _ => none) action ≠ .ok (some s')) → s.printed = [text "v\n"] := by
  have lines : ∀ line ∈ [text "q k\n"], Line line := by
    intro line member
    obtain rfl := List.mem_singleton.mp member
    exact ⟨text "q k", by decide, by decide, by decide, by decide⟩
  have fits : Fits (fun _ => none) (List.replicate bufSize 0) [text "q k\n"] := by
    refine ⟨by decide, ?_, nofun⟩
    intro line member
    obtain rfl := List.mem_singleton.mp member
    exact ⟨1, by decide⟩
  obtain ⟨responses, store, before⟩ : ∃ responses store,
      interpretAll (fun _ => none) maxLen 1 [text "a k v\n"] Store.empty = .ok (responses, store) := ⟨_, _, rfl⟩
  refine ⟨responses, store, before, ?_⟩
  intro s reachable stuck
  obtain ⟨enough, prints⟩ := client_prints_replies lines List.length_replicate fits (by decide) before
  obtain ⟨_, atEnd⟩ := prints enough (Nat.le_refl _) s reachable
  refine (atEnd stuck).1.trans ?_
  show [reply _ _ _ ++ _] = _
  decide

end Cs1330.Connection
