import Cs1330.Server.Connection

/-!
# Requests and responses in step

A script whose lines fit the buffer of the server goes through the phases of a connection line by
line, whatever the order in which the two sides run. A script with a longer line does not: the
server makes two calls of it.
-/

namespace Cs1330.Connection
open Db

variable {files : CString → Option CString} {qbuf : List UInt8} {script done rest : List CString} {line : CString}
  {s s' : State} {works : Bool} {depth : Nat}

/-! ### Every run of a script that fits -/

inductive Phase (qbuf : List UInt8) (script : List CString) (s : State) : Prop
  | quiet (done rest : List CString) : Quiet qbuf script done rest s → Phase qbuf script s
  | sent (done : List CString) (line : CString) (rest : List CString) : Sent qbuf script done line rest s → Phase qbuf script s
  | working (done : List CString) (line : CString) (rest : List CString) : Working qbuf script done line rest s →
      Phase qbuf script s
  | answered (done rest : List CString) : Answered qbuf script done rest s → Phase qbuf script s
  | replied (done rest : List CString) : Replied qbuf script done rest s → Phase qbuf script s
  | leaving : Leaving qbuf script s → Phase qbuf script s
  | ended : Ended script s → Phase qbuf script s

section

variable (lines : ∀ line ∈ script, Line line) (room : qbuf ≠ []) (fits : Fits files qbuf script)

theorem Played.mem (played : Played qbuf script (done ++ [line]) rest s) : line ∈ script := by
  rw [played.script]
  simp

include lines fits in
theorem fits_marker : (fgets bufLen (markerAfter qbuf script)).2 = [] := by
  unfold markerAfter
  cases last : script.getLast? with
  | none => exact fits.marker (List.getLast?_eq_none_iff.mp last)
  | some line =>
    have member := List.mem_of_getLast? last
    exact fgets_marker (lines line member) (fits.short line member)

include lines in
theorem Phase.client (phase : Phase qbuf script s) (run : s.runClient = some s') : Phase qbuf script s' := by
  cases phase with
  | quiet done rest quiet =>
    cases rest with
    | nil =>
      obtain ⟨next, sent, leaving⟩ := quiet.finish
      obtain rfl := Option.some.inj (run.symm.trans sent)
      exact .leaving leaving
    | cons line rest =>
      have isLine : Line line := lines line (by rw [quiet.script]; simp)
      obtain ⟨next, moved, sent⟩ := quiet.send isLine
      obtain rfl := Option.some.inj (run.symm.trans moved)
      exact .sent done line rest sent
  | sent done line rest sent =>
    rw [runClient_waits sent.client sent.toClient sent.idle.elsewhere.2] at run
    cases run
  | working done line rest working =>
    rw [runClient_waits working.client working.toClient (by rw [working.server]; decide)] at run
    cases run
  | answered done rest answered =>
    rw [runClient_waits answered.client answered.toClient (by rw [answered.server]; decide)] at run
    cases run
  | replied done rest replied =>
    obtain ⟨next, moved, quiet⟩ := replied.print
    obtain rfl := Option.some.inj (run.symm.trans moved)
    exact .quiet done rest quiet
  | leaving leaving =>
    simp only [State.runClient, leaving.client] at run
    cases run
  | ended ended =>
    simp only [State.runClient, ended.client] at run
    cases run

theorem Ended.commServe (ended : Ended script s) (run : s.commServe works = some s') : Ended script s' := by
  have same : s'.client = s.client ∧ s'.toServer = s.toServer ∧ s'.calls = s.calls ∧ s'.printed = s.printed ∧
      s'.answers = s.answers := by
    cases server : s.server with
    | replying =>
      simp only [State.commServe, server] at run
      split_ifs at run <;> cases run <;> exact ⟨rfl, rfl, rfl, rfl, rfl⟩
    | reading =>
      simp only [State.commServe, server, if_pos ended.toServer] at run
      split_ifs at run <;> cases run <;> exact ⟨rfl, rfl, rfl, rfl, rfl⟩
    | interpreting =>
      simp only [State.commServe, server] at run
      cases run
    | closed =>
      simp only [State.commServe, server] at run
      cases run
  obtain ⟨client, toServer, calls, printed, answers⟩ := same
  exact ⟨client.trans ended.client, toServer.trans ended.toServer, calls ▸ ended.calls, by rw [printed, answers]; exact ended.printed,
    by rw [printed]; exact ended.count⟩

include lines room fits in
theorem Phase.serve (phase : Phase qbuf script s) (run : s.commServe works = some s') : Phase qbuf script s' := by
  cases phase with
  | quiet done rest quiet =>
    rcases quiet.serve works with waits | ⟨next, moved, quiet'⟩
    · rw [waits] at run
      cases run
    · obtain rfl := Option.some.inj (run.symm.trans moved)
      exact .quiet done rest quiet'
  | sent done line rest sent =>
    have member := sent.mem
    rcases sent.idle with server | ⟨server, response⟩
    · cases works with
      | true =>
        obtain ⟨next, moved, _, working⟩ := sent.read (lines line member) server
        obtain rfl := Option.some.inj (run.symm.trans moved)
        exact .working done line rest (working (fits.short line member))
      | false =>
        have noReset : ¬(s.Gone ∧ s.toClient ≠ []) := fun both => present_of_awaiting sent.client both.1
        simp only [State.commServe, server, if_neg noReset, Bool.false_eq_true, ↓reduceIte] at run
        cases run
    · obtain ⟨next, moved, sent', _⟩ := sent.wake works server response
      obtain rfl := Option.some.inj (run.symm.trans moved)
      exact .sent done line rest sent'
  | working done line rest working =>
    simp only [State.commServe, working.server] at run
    cases run
  | answered done rest answered =>
    cases works with
    | true =>
      obtain ⟨next, moved, replied⟩ := answered.serve
      obtain rfl := Option.some.inj (run.symm.trans moved)
      exact .replied done rest replied
    | false =>
      rw [answered.unfailing] at run
      cases run
  | replied done rest replied =>
    rw [commServe_waits replied.server replied.toServer (present_of_awaiting replied.client)] at run
    cases run
  | leaving leaving =>
    rcases leaving.idle with server | ⟨server, response⟩
    · cases works with
      | true =>
        obtain ⟨next, tail, moved, client, _, command, _, _, calls, toServer, printed, answers, _⟩ := leaving.read room server
        obtain rfl := Option.some.inj (run.symm.trans moved)
        refine .ended ⟨client, ?_, ⟨_, calls, ?_⟩, ?_, ?_⟩
        · rw [toServer]
          exact fits_marker lines fits
        · rw [command]
          exact not_isCommand_marker
        · rw [printed, answers, leaving.printed]
        · rw [printed, leaving.printed, List.length_map]
          exact leaving.answers
      | false =>
        have noReset : ¬(s.Gone ∧ s.toClient ≠ []) := fun both => both.2 leaving.toClient
        simp only [State.commServe, server, if_neg noReset, Bool.false_eq_true, ↓reduceIte] at run
        cases run
    · obtain ⟨next, moved, leaving', _⟩ := leaving.wake works server response
      obtain rfl := Option.some.inj (run.symm.trans moved)
      exact .leaving leaving'
  | ended ended => exact .ended (ended.commServe run)

theorem interpret_ok (run : s.interpret files depth = .ok (some s')) : s.server = .interpreting ∧
    ∃ response store, interpretCommand files maxLen depth s.command s.store = .ok (response, store) ∧
      s' = { s with response := response, store := store, answers := s.answers ++ [response], server := .replying } := by
  cases server : s.server with
  | interpreting =>
    simp only [State.interpret, server] at run
    obtain ⟨⟨response, store⟩, returned, run⟩ := Run.except_bind run
    cases run
    exact ⟨rfl, response, store, returned, rfl⟩
  | _ =>
    rw [interpret_elsewhere (by rw [server]; decide)] at run
    cases run

include lines fits in
theorem Phase.interpret (phase : Phase qbuf script s) (run : s.interpret files depth = .ok (some s')) : Phase qbuf script s' := by
  obtain ⟨server, response, store, returned, rfl⟩ := interpret_ok run
  cases phase with
  | quiet done rest quiet => exact (quiet.idle.elsewhere.1 server).elim
  | sent done line rest sent => exact (sent.idle.elsewhere.1 server).elim
  | working done line rest working =>
    have member := working.mem
    rw [working.command] at returned
    obtain ⟨next, moved, answered⟩ := working.returns (lines line member) (fits.short line member) returned
    obtain rfl := Option.some.inj (Except.ok.inj (run.symm.trans moved))
    exact .answered _ rest answered
  | answered done rest answered => cases answered.server.symm.trans server
  | replied done rest replied => cases replied.server.symm.trans server
  | leaving leaving => exact (leaving.idle.elsewhere.1 server).elim
  | ended ended =>
    refine .ended ⟨ended.client, ended.toServer, ended.calls, ?_, ended.count⟩
    rw [List.map_append]
    exact ended.printed.trans (List.prefix_append _ _)

include lines room fits in
theorem Phase.step {action : Action} (phase : Phase qbuf script s) (run : s.step files action = .ok (some s')) :
    Phase qbuf script s' := by
  cases action with
  | client => exact phase.client lines (Except.ok.inj run)
  | serve works => exact phase.serve lines room fits (Except.ok.inj run)
  | interpret depth => exact phase.interpret lines fits run

theorem quiet_initial (qbuf : List UInt8) (script : List CString) {store : Store} (serving : ∃ t m, Serving store t m) :
    Quiet qbuf script [] script (.initial script.flatten qbuf store) :=
  ⟨⟨rfl, rfl, serving, rfl⟩, rfl, rfl, rfl, .inr ⟨rfl, rfl⟩, rfl, rfl, rfl⟩

theorem Behind.printed {count : Nat} (behind : Behind s count) : s.printed <+: s.answers.map (· ++ [byte '\n']) := by
  obtain ⟨before, answers, printed, _⟩ := behind
  rw [answers, printed, List.map_append]
  exact List.prefix_append _ _

include lines fits in
/-- In every phase there is a next step, or the lines are all done. -/
theorem Phase.inStep (phase : Phase qbuf script s) : InStep files script s := by
  cases phase with
  | quiet done rest quiet =>
    refine ⟨.inl ?_, by rw [quiet.printed], ?_⟩
    · rw [quiet.calls, quiet.script]
      exact List.prefix_append _ _
    · intro stuck
      cases rest with
      | nil =>
        obtain ⟨next, moved, _⟩ := quiet.finish
        exact (stuck .client next (congrArg Except.ok moved)).elim
      | cons line rest =>
        obtain ⟨next, moved, _⟩ := quiet.send (lines line (by rw [quiet.script]; simp))
        exact (stuck .client next (congrArg Except.ok moved)).elim
  | sent done line rest sent =>
    refine ⟨.inl ?_, by rw [sent.printed], ?_⟩
    · rw [sent.calls, sent.script, List.append_assoc]
      exact List.prefix_append _ _
    · intro stuck
      rcases sent.idle with server | ⟨server, response⟩
      · obtain ⟨next, moved, _⟩ := sent.read (lines line sent.mem) server
        exact (stuck (.serve true) next (congrArg Except.ok moved)).elim
      · exact (stuck (.serve true) _ (congrArg Except.ok (commServe_wakes _ server response))).elim
  | working done line rest working =>
    refine ⟨.inl ?_, by rw [working.printed], ?_⟩
    · rw [working.calls, working.script]
      exact List.prefix_append _ _
    · intro stuck
      have isLine := lines line working.mem
      have short := fits.short line working.mem
      obtain ⟨t, m, serving⟩ := working.serving
      obtain ⟨depth, nests⟩ := fits.nests line working.mem
      obtain ⟨response, store, returned, _⟩ := serving.returns (Nat.le_of_lt_succ short) isLine.noNul nests
      obtain ⟨next, moved, _⟩ := working.returns isLine short returned
      exact (stuck (.interpret depth) next moved).elim
  | answered done rest answered =>
    refine ⟨.inl ?_, answered.behind.printed, ?_⟩
    · rw [answered.calls, answered.script]
      exact List.prefix_append _ _
    · intro stuck
      obtain ⟨next, moved, _⟩ := answered.serve
      exact (stuck (.serve true) next (congrArg Except.ok moved)).elim
  | replied done rest replied =>
    refine ⟨.inl ?_, replied.behind.printed, ?_⟩
    · rw [replied.calls, replied.script]
      exact List.prefix_append _ _
    · intro stuck
      obtain ⟨next, moved, _⟩ := replied.print
      exact (stuck .client next (congrArg Except.ok moved)).elim
  | leaving leaving =>
    refine ⟨.inl (by rw [leaving.calls]), by rw [leaving.printed], ?_⟩
    intro _
    rw [leaving.calls, leaving.printed, List.length_map]
    exact ⟨List.prefix_rfl, leaving.answers⟩
  | ended ended =>
    refine ⟨.inr ended.calls, ended.printed, ?_⟩
    intro _
    obtain ⟨last, calls, _⟩ := ended.calls
    rw [calls]
    exact ⟨List.prefix_append _ _, ended.count⟩

end

/-! ### Every run comes to an end -/

def ClientPc.weight : ClientPc → Nat
  | sending => 4 * bufSize + 1
  | awaiting => 4 * bufSize + 2
  | finished => 0
  | lost => 0

def ServerPc.weight : ServerPc → Nat
  | interpreting => 3
  | replying => 2
  | reading => 1
  | closed => 0

def State.size (s : State) : Nat := 6 * s.infile.length + 4 * s.toServer.length + s.client.weight + s.server.weight

theorem cstr_fill_length (buffer line : List UInt8) : (cstr (State.fill buffer line)).length ≤ line.length := by
  unfold cstr State.fill
  rw [List.takeWhile_append]
  split
  · simp
  · exact (List.takeWhile_prefix _).length_le

theorem fill_length {buffer line : List UInt8} (room : buffer.length = bufSize) (fits : line.length < bufSize) :
    (State.fill buffer line).length = bufSize := by
  simp only [State.fill, List.length_append, List.length_cons, List.length_drop]
  omega

theorem runClient_size (room : s.qbuf.length = bufSize) (run : s.runClient = some s') :
    s'.qbuf.length = bufSize ∧ s'.size < s.size := by
  cases client : s.client with
  | sending =>
    simp only [State.runClient, client] at run
    by_cases ended : s.infile = []
    · rw [if_pos ended] at run
      cases run
      have marked : (State.markEnd s.qbuf).length = bufSize := (List.length_set ..).trans room
      have sent : (cstr (State.markEnd s.qbuf)).length ≤ bufSize := marked ▸ (List.takeWhile_prefix _).length_le
      refine ⟨marked, ?_⟩
      simp only [State.size, client, ClientPc.weight, List.length_append]
      omega
    · rw [if_neg ended] at run
      cases run
      have bound : (fgets bufSize s.infile).1.length < bufSize :=
        Nat.lt_of_le_of_lt (fgets_length bufSize s.infile) (by decide)
      have positive := fgets_pos (show 1 < bufSize by decide) ended
      have split := congrArg List.length (fgets_append bufSize s.infile)
      have sent := cstr_fill_length s.qbuf (fgets bufSize s.infile).1
      rw [List.length_append] at split
      refine ⟨fill_length room bound, ?_⟩
      simp only [State.size, client, ClientPc.weight, List.length_append]
      omega
  | awaiting =>
    simp only [State.runClient, client] at run
    split_ifs at run <;> cases run
    · refine ⟨room, ?_⟩
      simp only [State.size, client, ClientPc.weight]
      omega
    · refine ⟨room, ?_⟩
      simp only [State.size, client, ClientPc.weight]
      omega
  | finished =>
    simp only [State.runClient, client] at run
    cases run
  | lost =>
    simp only [State.runClient, client] at run
    cases run

theorem commServe_size (run : s.commServe works = some s') : s'.qbuf = s.qbuf ∧ s'.size < s.size := by
  cases server : s.server with
  | replying =>
    simp only [State.commServe, server] at run
    split_ifs at run <;> cases run <;> refine ⟨rfl, ?_⟩ <;> simp only [State.size, server, ServerPc.weight] <;> omega
  | reading =>
    simp only [State.commServe, server] at run
    split_ifs at run with _ _ ended <;> cases run <;> refine ⟨rfl, ?_⟩
    · simp only [State.size, server, ServerPc.weight]
      omega
    · have positive := fgets_pos (show 1 < bufLen by decide) ended
      have split := congrArg List.length (fgets_append bufLen s.toServer)
      rw [List.length_append] at split
      simp only [State.size, server, ServerPc.weight]
      omega
    · simp only [State.size, server, ServerPc.weight]
      omega
  | interpreting =>
    simp only [State.commServe, server] at run
    cases run
  | closed =>
    simp only [State.commServe, server] at run
    cases run

theorem step_size {action : Action} (room : s.qbuf.length = bufSize) (run : s.step files action = .ok (some s')) :
    s'.qbuf.length = bufSize ∧ s'.size < s.size := by
  cases action with
  | client => exact runClient_size room (Except.ok.inj run)
  | serve works =>
    obtain ⟨same, smaller⟩ := commServe_size (Except.ok.inj run)
    exact ⟨same ▸ room, smaller⟩
  | interpret depth =>
    obtain ⟨server, response, store, _, rfl⟩ := interpret_ok run
    refine ⟨room, ?_⟩
    simp only [State.size, server, ServerPc.weight]
    omega

/-! ### A script that stays in step fits -/

section

variable {start : State} (inStep : ∀ s, Reachable files start s → InStep files script s)

theorem reach_client (reachable : Reachable files start s) (moved : s.runClient = some s') : Reachable files start s' :=
  Transition.Reachable.step (s := s) .client reachable trivial (congrArg Except.ok moved)

theorem reach_serve (reachable : Reachable files start s) (moved : s.commServe works = some s') : Reachable files start s' :=
  Transition.Reachable.step (s := s) (.serve works) reachable trivial (congrArg Except.ok moved)

theorem reach_interpret (reachable : Reachable files start s) (moved : s.interpret files depth = .ok (some s')) :
    Reachable files start s' :=
  Transition.Reachable.step (s := s) (.interpret depth) reachable trivial moved

include inStep in
/-- The server takes the whole line in one call, and the call returns. -/
theorem Quiet.forced (quiet : Quiet qbuf script done (line :: rest) s) (isLine : Line line) (reachable : Reachable files start s) :
    line.length < bufLen ∧ (∃ depth, Nests files depth line) ∧
      ∃ s', Reachable files start s' ∧ Quiet qbuf script (done ++ [line]) rest s' := by
  obtain ⟨s₁, moved, sent⟩ := quiet.send isLine
  have reached := reach_client reachable moved
  obtain ⟨s₂, reached, sent, server⟩ :
      ∃ s₂, Reachable files start s₂ ∧ Sent qbuf script done line rest s₂ ∧ s₂.server = .reading := by
    rcases sent.idle with server | ⟨server, response⟩
    · exact ⟨s₁, reached, sent, server⟩
    · obtain ⟨s₂, moved, sent, server⟩ := sent.wake true server response
      exact ⟨s₂, reach_serve reached moved, sent, server⟩
  obtain ⟨s₃, moved, calls, working⟩ := sent.read isLine server
  have reached := reach_serve reached moved
  have whole : cstr (fgets bufLen line).1 = line := by
    have isScript := sent.script
    rcases (inStep s₃ reached).calls with soFar | ⟨last, all, _⟩
    · rw [calls, isScript, List.append_assoc, List.prefix_append_right_inj] at soFar
      exact (List.cons_prefix_cons.mp soFar).1
    · have count := congrArg List.length (calls.symm.trans all)
      simp only [isScript, List.length_append, List.length_singleton] at count
      omega
  have short : line.length < bufLen := by
    have bound := (List.takeWhile_prefix (p := (· ≠ 0)) (l := (fgets bufLen line).1)).length_le
    have cut := fgets_length bufLen line
    change (cstr (fgets bufLen line).1).length ≤ _ at bound
    rw [whole] at bound
    exact Nat.lt_of_le_of_lt (Nat.le_trans bound cut) (by decide)
  have working := working short
  obtain ⟨depth, response, store, returned⟩ :
      ∃ depth response store, interpretCommand files maxLen depth line s₃.store = .ok (response, store) := by
    by_contra never
    push Not at never
    -- The client waits for the response of a call that does not return.
    have stuck : ∀ action s', s₃.step files action ≠ .ok (some s') := by
      intro action s' run
      cases action with
      | client =>
        have waits := runClient_waits working.client working.toClient (by rw [working.server]; decide)
        cases waits.symm.trans (Except.ok.inj run)
      | serve works =>
        have run := Except.ok.inj run
        simp only [State.commServe, working.server] at run
        cases run
      | interpret depth =>
        obtain ⟨_, response, store, returned, _⟩ := interpret_ok run
        rw [working.command] at returned
        exact never depth response store returned
    have count := ((inStep s₃ reached).complete stuck).2
    rw [working.printed, List.length_map, working.answers, working.script] at count
    simp at count
  obtain ⟨s₄, moved, answered⟩ := working.returns isLine short returned
  have reached := reach_interpret reached moved
  obtain ⟨s₅, moved, replied⟩ := answered.serve
  have reached := reach_serve reached moved
  obtain ⟨s₆, moved, quiet⟩ := replied.print
  exact ⟨short, ⟨depth, nests_of_returns returned⟩, s₆, reach_client reached moved, quiet⟩

include inStep in
theorem Quiet.fits (isLine : ∀ line ∈ rest, Line line) : ∀ {done : List CString} {s : State}, Quiet qbuf script done rest s →
    Reachable files start s → ∀ line ∈ rest, line.length < bufLen ∧ ∃ depth, Nests files depth line := by
  induction rest with
  | nil =>
    intro done s _ _ line member
    cases member
  | cons first rest ih =>
    intro done s quiet reachable line member
    obtain ⟨short, nests, s', reached, quiet'⟩ := quiet.forced inStep (isLine first List.mem_cons_self) reachable
    rcases List.mem_cons.mp member with rfl | later
    · exact ⟨short, nests⟩
    · exact ih (fun line member => isLine line (List.mem_cons_of_mem _ member)) quiet' reached line later

include inStep in
/-- The end marker that an empty script sends is read in one call. -/
theorem Leaving.forced (leaving : Leaving qbuf script s) (room : qbuf ≠ []) (server : s.server = .reading)
    (reachable : Reachable files start s) : (fgets bufLen (markerAfter qbuf script)).2 = [] := by
  obtain ⟨s₁, tail, moved, client, server, command, short, noNul, calls, toServer, _, _, store⟩ := leaving.read room server
  have reached := reach_serve reachable moved
  obtain ⟨t, m, serving⟩ := leaving.serving
  rw [← store] at serving
  have noFile : Nests files 1 s₁.command := by
    rw [command]
    intro contents opens
    cases opens
  obtain ⟨response, store', returned, reply, _⟩ := serving.returns short noNul noFile
  let s₂ : State := { s₁ with response := response, store := store', answers := s₁.answers ++ [response], server := .replying }
  have interpreted : s₁.interpret files 1 = .ok (some s₂) := by
    simp only [State.interpret, server, returned]
    rfl
  have reached := reach_interpret reached interpreted
  have speaks : s₂.response.length > 0 := List.length_pos_iff.mpr reply.nonempty
  let s₃ : State := { s₂ with toClient := s₂.toClient ++ s₂.response ++ [byte '\n'], server := .reading }
  have replied : s₂.commServe true = some s₃ := by
    have replying : s₂.server = .replying := rfl
    simp only [State.commServe, replying, if_pos speaks, ↓reduceIte]
    rfl
  have reached := reach_serve reached replied
  by_contra unread
  -- A second line of the marker is one call too many.
  have ready : State.Available bufLen s₃.toServer s₃.Gone := .inr (.inr (.inl client))
  have nonempty : s₃.toServer ≠ [] := by
    change s₁.toServer ≠ []
    rwa [toServer]
  have again : s₃.commServe true = some { s₃ with
      toServer := (fgets bufLen s₃.toServer).2
      command := cstr (fgets bufLen s₃.toServer).1
      calls := s₃.calls ++ [cstr (fgets bufLen s₃.toServer).1]
      server := .interpreting } := by
    have reading : s₃.server = .reading := rfl
    simp only [State.commServe, reading, if_pos ready, if_neg nonempty, ↓reduceIte]
  have twice := (inStep _ (reach_serve reached again)).calls
  have earlier : s₃.calls = script ++ [s₁.command] := calls
  rcases twice with soFar | ⟨last, all, _⟩
  · have count := soFar.length_le
    simp only [earlier, List.length_append, List.length_singleton] at count
    omega
  · have count := congrArg List.length all
    simp only [earlier, List.length_append, List.length_singleton] at count
    omega

end

/-! ### In step exactly when the script fits -/

theorem serving_of_database {store : Store} (database : Database files store) : ∃ t m, Serving store t m := by
  obtain ⟨depth, commands, responses, short, run⟩ := database
  refine serving_empty.interpretAll ?_ run
  intro command member
  exact ⟨Nat.le_of_lt_succ (short command member).1, (short command member).2⟩

theorem staysInStep_of_fits {store : Store} (lines : ∀ line ∈ script, Line line) (room : qbuf.length = bufSize)
    (serving : ∃ t m, Serving store t m) (fits : Fits files qbuf script) : StaysInStep files qbuf store script := by
  have nonempty : qbuf ≠ [] := by
    rintro rfl
    cases room
  constructor
  · intro s reachable
    have phase : Phase qbuf script s := by
      apply reachable.invariant (.quiet [] script (quiet_initial qbuf script serving))
      intro s s' action phase _ run
      exact phase.step lines nonempty fits run
    exact phase.inStep lines fits
  · refine ⟨State.size (.initial script.flatten qbuf store), ?_⟩
    intro actions s found
    exact Transition.follow_length (P := fun s => s.qbuf.length = bufSize)
      (fun s s' action room run => step_size room run) room found

theorem fits_of_staysInStep {store : Store} (lines : ∀ line ∈ script, Line line) (room : qbuf.length = bufSize)
    (serving : ∃ t m, Serving store t m) (inStep : StaysInStep files qbuf store script) : Fits files qbuf script := by
  have each := (quiet_initial qbuf script serving).fits inStep.1 lines .initial
  refine ⟨fun line member => (each line member).1, fun line member => (each line member).2, ?_⟩
  rintro rfl
  have nonempty : qbuf ≠ [] := by
    rintro rfl
    cases room
  obtain ⟨s₁, moved, leaving⟩ := (quiet_initial qbuf [] serving).finish
  have reached : Reachable files (.initial [].flatten qbuf store) s₁ := reach_client .initial moved
  rcases leaving.idle with server | ⟨server, response⟩
  · exact leaving.forced inStep.1 nonempty server reached
  · obtain ⟨s₂, woken, leaving, server⟩ := leaving.wake true server response
    exact leaving.forced inStep.1 nonempty server (reach_serve reached woken)

/-- Client and server stay in step exactly when each line of the script fits the buffer of the server, no `f` command
nests for ever, and the end marker of an empty script is one line. -/
theorem staysInStep_iff {store : Store} (lines : ∀ line ∈ script, Line line) (room : qbuf.length = bufSize)
    (database : Database files store) : StaysInStep files qbuf store script ↔ Fits files qbuf script :=
  ⟨fits_of_staysInStep lines room (serving_of_database database), staysInStep_of_fits lines room (serving_of_database database)⟩

theorem staysInStep_addAndQuery : StaysInStep (fun _ => none) (List.replicate bufSize 0) Store.empty
    [text "a k v\n", text "q k\n"] := by
  have lines : ∀ line ∈ [text "a k v\n", text "q k\n"], Line line := by
    intro line member
    rcases List.mem_pair.mp member with rfl | rfl
    · exact ⟨text "a k v", by decide, by decide, by decide, by decide⟩
    · exact ⟨text "q k", by decide, by decide, by decide, by decide⟩
  refine (staysInStep_iff lines List.length_replicate ⟨0, [], [], nofun, rfl⟩).mpr ⟨?_, ?_, nofun⟩
  · decide
  · intro line member
    refine ⟨1, ?_⟩
    rcases List.mem_pair.mp member with rfl | rfl
    · intro contents opens
      cases opens
    · intro contents opens
      cases opens

/-- An `a` command with a value of 251 bytes, which is one byte too long for the server. It takes 255 bytes for a
command and leaves the rest of the line unread; its next reply then fails with glibc, and it drops the connection. -/
def longLine : CString := text "a k " ++ List.replicate 251 (byte 'x') ++ [byte '\n']

theorem longLine_cut : Line longLine ∧
    ∃ s, Reachable (fun _ => none) (.initial [longLine].flatten (List.replicate bufSize 0) Store.empty) s ∧
      s.calls = [longLine.take 255] ∧ ¬InStep (fun _ => none) [longLine] s := by
  constructor
  · refine ⟨text "a k " ++ List.replicate 251 (byte 'x'), rfl, ?_, ?_, ?_⟩
    · decide +kernel
    · decide +kernel
    · decide +kernel
  · have run : (Transition.follow (State.step fun _ => none) (fun _ _ => True) [.client, .serve true, .serve true]
        (.initial [longLine].flatten (List.replicate bufSize 0) Store.empty)).map (fun s => s.calls) =
        some [longLine.take 255] := by decide +kernel
    obtain ⟨s, found, calls⟩ := Option.map_eq_some_iff.mp run
    refine ⟨s, Transition.follow_reachable .initial found, calls, ?_⟩
    intro inStep
    have cut : (longLine.take 255).length ≠ longLine.length := by decide +kernel
    rcases inStep.calls with soFar | ⟨last, all, _⟩
    · rw [calls] at soFar
      exact cut (congrArg List.length (List.cons_prefix_cons.mp soFar).1)
    · rw [calls] at all
      exact cut (congrArg List.length (List.cons.inj all).1)

end Cs1330.Connection
