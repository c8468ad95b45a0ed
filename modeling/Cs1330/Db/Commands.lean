import Cs1330.Db.Additions

/-!
# The database as a finite map

The abstract database is a partial map from tokens to tokens, and a command is what its words
say. `interpret_command` refines it: the same answers, with the map held in the search tree.
-/

namespace Cs1330.Db
open SearchTree SearchTree.Tree

/-! ### The abstract database -/

abbrev Bindings := CString → Option CString

inductive Command where
  | query (key : CString)
  | add (key value : CString)
  | remove (key : CString)
  | illFormed
  deriving DecidableEq, Repr

def parse : CString → Command
  | [] => .illFormed
  | c :: rest =>
    if firstWord rest = [] then .illFormed
    else if c = byte 'q' then .query (firstWord rest)
    else if c = byte 'a' then
      if firstWord (afterWord rest) = [] then .illFormed else .add (firstWord rest) (firstWord (afterWord rest))
    else if c = byte 'd' then .remove (firstWord rest)
    else .illFormed

def answer (m : Bindings) : Command → CString
  | .query key => (m key).getD (text "not found")
  | .add key _ => if m key = none then text "added" else text "already in database"
  | .remove key => if m key = none then text "not in database" else text "removed"
  | .illFormed => text "ill-formed command"

def effect (m : Bindings) : Command → Bindings
  | .query _ => m
  | .add key value => if m key = none then Function.update m key (some value) else m
  | .remove key => Function.update m key none
  | .illFormed => m

def answers (m : Bindings) : List CString → List CString
  | [] => []
  | command :: commands => answer m (parse command) :: answers (effect m (parse command)) commands

def bindings (m : Bindings) (commands : List CString) : Bindings :=
  commands.foldl (fun m command => effect m (parse command)) m

/-- A word: not empty and without whitespace. -/
def Token (s : CString) : Prop := s ≠ [] ∧ ∀ c ∈ s, isspace c = false

/-! ### The three operations on a tree -/

variable {s s' : Store} {t : KeyTree} {key value : CString} {n : NodeId}

/-- What `db_query` does with the node that its search found. -/
def queryEnd : KeyTree → List Op
  | .nil => []
  | .node a _ _ _ _ => [.read a, .unlock a]

theorem Shape.traces_dbQuery (shape : Shape s t) (key : CString) (len : Nat) :
    ∃ c t' way, Descent key false .read .top t c t' way ∧
      Traces (dbQuery key len) s (snprintf len ((t.lookup key).getD (text "not found"))) s
        (.lock .write head :: (way ++ queryEnd t')) := by
  obtain ⟨c, t', way, descent, rfl, follows, stop, run⟩ := shape.traces_searchFrom key false .read
  refine ⟨c, t', way, descent, ?_⟩
  unfold dbQuery
  apply (traces_rwlock shape.root).cons
  apply run.bind
  rcases stop with rfl | ⟨a, l, v, r, rfl⟩
  · rw [lookup_absent follows]
    exact Traces.pure _ _
  · have root := (stored_plug.mp shape.stored).2.1
    rw [lookup_present follows]
    apply (traces_node root).cons
    exact (traces_unlock root).cons (Traces.pure _ _)

theorem Shape.lookup_short (shape : Shape s t) {v : CString} (found : t.lookup key = some v) : v.length < maxLen :=
  (shape.short _ (mem_entries_of_lookup found)).2

theorem Shape.runs_dbQuery (shape : Shape s t) (key : CString) (ops : List Op) :
    Runs (dbQuery key maxLen) (s.withOps ops) ((t.lookup key).getD (text "not found")) s := by
  obtain ⟨_, _, _, _, run⟩ := shape.traces_dbQuery key maxLen
  have fits : ((t.lookup key).getD (text "not found")).length < maxLen := by
    cases found : t.lookup key with
    | none => decide
    | some v => exact shape.lookup_short found
  rw [snprintf_short fits] at run
  exact run.runs ops

theorem Shape.runs_dbAdd (shape : Shape s t) (succeeds : s.mallocs = []) (keyShort : key.length < maxLen)
    (valueShort : value.length < maxLen) :
    ∃ s' t', (∀ ops, Runs (dbAdd key value) (s.withOps ops) (if t.lookup key = none then 1 else 0) s') ∧ Shape s' t' ∧
      s'.mallocs = [] ∧ ∀ k, t'.lookup k = if t.lookup key = none ∧ k = key then some value else t.lookup k := by
  obtain ⟨result, s', _, _, _, addition, _, run⟩ := shape.traces_dbAdd key value
  obtain ⟨rfl, ⟨count, mallocs⟩, t', shape', lookups⟩ := addition.shape shape keyShort valueShort
  refine ⟨s', t', run.runs, shape', by simp [mallocs, succeeds], fun k => ?_⟩
  rw [lookups]
  simp [granted_of_nil succeeds]

/-- What `db_remove` does after its search, when it leaves the tree `after`. -/
inductive RemoveEnd (parent : NodeId) (after : KeyTree) : KeyTree → List Op → Prop
  | absent : RemoveEnd parent after .nil [.unlock parent]
  | removed {a victim : NodeId} {l r : KeyTree} {k v : CString} {trace : List Op} : UnlinkTrace parent a l r trace →
      Tree.victim (.node a l k v r) = some victim → victim ∉ head :: after.addrs →
      RemoveEnd parent after (.node a l k v r) (trace ++ [.unlock parent, .unlock a, .destroy victim])

theorem Shape.traces_dbRemove (shape : Shape s t) (key : CString) :
    ∃ s' after, (Shape s' after ∧ s'.mallocs = s.mallocs ∧ ∀ k, after.lookup k = if k = key then none else t.lookup k) ∧
      ∃ c t' way rest, Descent key true .write .top t c t' way ∧ RemoveEnd (c.owner head) after t' rest ∧
        Traces (dbRemove key) s (if t.lookup key = none then 0 else 1) s' (.lock .write head :: (way ++ rest)) := by
  obtain ⟨c, t', way, descent, rfl, follows, stop, run⟩ := shape.traces_searchFrom key true .write
  obtain ⟨v, owner, _⟩ := shape.owner follows
  rcases stop with rfl | ⟨a, l, w, r, rfl⟩
  · have miss := lookup_absent follows
    refine ⟨s, _, ⟨shape, rfl, ?_⟩, c, .nil, way, _, descent, .absent, ?_⟩
    · intro k
      by_cases same : k = key
      · rw [same, if_pos rfl, miss]
      · rw [if_neg same]
    · rw [if_pos miss]
      unfold dbRemove
      apply (traces_rwlock shape.root).cons
      apply run.bind
      exact (traces_unlock owner).cons (Traces.pure _ _)
  · have root := (stored_plug.mp shape.stored).2.1
    obtain ⟨s₁, victim, trace, unlink, done, recorded⟩ := shape.traces_unlinkNode follows
    have rootMem : a ∈ head :: (c.plug (.node a l key w r)).addrs :=
      List.mem_cons_of_mem _ (Ctx.mem_addrs_plug.mpr (Or.inr List.mem_cons_self))
    obtain ⟨_, ownerThen, _⟩ := done.shape.owner follows
    obtain ⟨_, rootThen⟩ := done.present shape rootMem
    obtain ⟨_, victimThen⟩ := done.present shape (done.addrs.mem_iff.mpr List.mem_cons_self)
    have outside := done.victim_notIn shape
    refine ⟨s₁.put victim none, _, ⟨done.shape.forget outside, done.rest.mallocs, ?_⟩, c, _, way, _, descent,
      .removed recorded done.isVictim outside, ?_⟩
    · intro k
      apply (lookup_remove shape.ordered k).trans
      congr
    · rw [if_neg (by simp [lookup_present follows])]
      unfold dbRemove
      apply (traces_rwlock shape.root).cons
      apply run.bind
      apply unlink.bind
      apply (traces_unlock ownerThen).cons
      apply (traces_unlock rootThen).cons
      exact (traces_nodeDestructor victimThen).cons (Traces.pure _ _)

theorem Shape.runs_dbRemove (shape : Shape s t) (key : CString) :
    ∃ s' t', (∀ ops, Runs (dbRemove key) (s.withOps ops) (if t.lookup key = none then 0 else 1) s') ∧ Shape s' t' ∧
      s'.mallocs = s.mallocs ∧ ∀ k, t'.lookup k = if k = key then none else t.lookup k := by
  obtain ⟨s', t', ⟨shape', mallocs, lookups⟩, _, _, _, _, _, _, run⟩ := shape.traces_dbRemove key
  exact ⟨s', t', run.runs, shape', mallocs, lookups⟩

/-! ### Words of a command -/

theorem firstWord_token {s : CString} (word : firstWord s ≠ []) : Token (firstWord s) := by
  refine ⟨word, ?_⟩
  intro c member
  simpa using List.mem_takeWhile_imp member

theorem firstWord_length (s : CString) : (firstWord s).length ≤ s.length :=
  Nat.le_trans (List.takeWhile_prefix _).length_le (List.dropWhile_suffix _).length_le

theorem afterWord_length (s : CString) : (afterWord s).length ≤ s.length :=
  Nat.le_trans (List.dropWhile_suffix _).length_le (List.dropWhile_suffix _).length_le

/-- The store holds the map `m` of tokens. -/
structure Holds (s : Store) (t : KeyTree) (m : Bindings) : Prop where
  shape : Shape s t
  mallocs : s.mallocs = []
  lookup : ∀ k, t.lookup k = m k
  tokens : ∀ k v, m k = some v → Token v

/-- A command of at most 255 bytes that begins with `q`, `a` or `d`. -/
def Plain (command : CString) : Prop :=
  command.length ≤ 255 ∧ ∃ c rest, command = c :: rest ∧ (c = byte 'q' ∨ c = byte 'a' ∨ c = byte 'd')

section

variable {m : Bindings} {rest : CString} {c : UInt8}

theorem length_of_word (word : firstWord rest ≠ []) : ¬(c :: rest).length ≤ 1 := by
  intro single
  have none : rest = [] := List.length_eq_zero_iff.mp (by simpa using single)
  rw [none] at word
  exact word rfl

theorem firstWord_short (short : rest.length < maxLen) : (firstWord rest).length < maxLen :=
  Nat.lt_of_le_of_lt (firstWord_length rest) short

theorem byte_letters : byte 'a' ≠ byte 'q' ∧ byte 'd' ≠ byte 'q' ∧ byte 'd' ≠ byte 'a' := by decide

variable (holds : Holds s t m) (files : CString → Option CString) (depth : Nat) (short : rest.length < maxLen)

include short in
/-- No word after the letter. -/
theorem runs_noWord (letter : c = byte 'q' ∨ c = byte 'a' ∨ c = byte 'd') (empty : firstWord rest = []) (ops : List Op) :
    Runs (interpretCommand files maxLen (depth + 1) (c :: rest)) (s.withOps ops) (answer m .illFormed) s := by
  have first := scanWord_eq (Nat.le_of_lt_succ short)
  rw [interpretCommand]
  by_cases single : (c :: rest).length ≤ 1
  · rw [if_pos single]
    exact Runs.pure _ _
  · rw [if_neg single]
    simp only [first, if_pos empty]
    rcases letter with rfl | rfl | rfl
    · exact Runs.pure _ _
    · exact Runs.pure _ _
    · exact Runs.pure _ _

include holds short in
theorem Holds.runs_query (word : firstWord rest ≠ []) (ops : List Op) :
    Runs (interpretCommand files maxLen (depth + 1) (byte 'q' :: rest)) (s.withOps ops)
      (answer m (.query (firstWord rest))) s := by
  have first := scanWord_eq (Nat.le_of_lt_succ short)
  simp only [interpretCommand, if_neg (length_of_word word), first, if_neg word, ↓reduceIte]
  refine (holds.shape.runs_dbQuery (firstWord rest) ops).bind fun ops => ?_
  rw [holds.lookup]
  have nonempty : ((m (firstWord rest)).getD (text "not found")).length ≠ 0 := by
    cases bound : m (firstWord rest) with
    | none => decide
    | some v => exact fun zero => (holds.tokens _ v bound).1 (List.length_eq_zero_iff.mp zero)
  rw [if_neg nonempty]
  exact Runs.pure _ _

include short in
theorem runs_noValue (word : firstWord rest ≠ []) (missing : firstWord (afterWord rest) = []) (ops : List Op) :
    Runs (interpretCommand files maxLen (depth + 1) (byte 'a' :: rest)) (s.withOps ops) (answer m .illFormed) s := by
  have first := scanWord_eq (Nat.le_of_lt_succ short)
  have second := scanWord_eq (Nat.le_trans (afterWord_length rest) (Nat.le_of_lt_succ short))
  simp only [interpretCommand, if_neg (length_of_word word), first, if_neg word, second, if_pos missing,
    if_neg byte_letters.1, ↓reduceIte]
  exact Runs.pure _ _

include holds short in
theorem Holds.runs_add (word : firstWord rest ≠ []) (value : firstWord (afterWord rest) ≠ []) :
    ∃ s' t', (∀ ops, Runs (interpretCommand files maxLen (depth + 1) (byte 'a' :: rest)) (s.withOps ops)
        (answer m (.add (firstWord rest) (firstWord (afterWord rest)))) s') ∧
      Holds s' t' (effect m (.add (firstWord rest) (firstWord (afterWord rest)))) := by
  have first := scanWord_eq (Nat.le_of_lt_succ short)
  have second := scanWord_eq (Nat.le_trans (afterWord_length rest) (Nat.le_of_lt_succ short))
  have restShort := Nat.lt_of_le_of_lt (afterWord_length rest) short
  obtain ⟨s', t', run, shape', mallocs', lookup'⟩ :=
    holds.shape.runs_dbAdd holds.mallocs (firstWord_short short) (firstWord_short restShort)
  refine ⟨s', t', fun ops => ?_, shape', mallocs', ?_, ?_⟩
  · simp only [interpretCommand, if_neg (length_of_word word), first, if_neg word, second, if_neg value,
      if_neg byte_letters.1, ↓reduceIte]
    refine (run ops).bind fun ops => ?_
    rw [holds.lookup, answer]
    by_cases unbound : m (firstWord rest) = none
    · rw [if_pos unbound, if_pos unbound, if_pos (by decide)]
      exact Runs.pure _ _
    · rw [if_neg unbound, if_neg unbound, if_neg (by decide)]
      exact Runs.pure _ _
  · intro k
    rw [lookup', holds.lookup, holds.lookup, effect]
    by_cases unbound : m (firstWord rest) = none
    · rw [if_pos unbound, Function.update_apply]
      simp [unbound]
    · rw [if_neg unbound, if_neg (fun both => unbound both.1)]
  · intro k v bound
    rw [effect] at bound
    by_cases unbound : m (firstWord rest) = none
    · rw [if_pos unbound, Function.update_apply] at bound
      by_cases same : k = firstWord rest
      · rw [if_pos same] at bound
        exact Option.some.inj bound ▸ firstWord_token value
      · rw [if_neg same] at bound
        exact holds.tokens k v bound
    · rw [if_neg unbound] at bound
      exact holds.tokens k v bound

include holds short in
theorem Holds.runs_remove (word : firstWord rest ≠ []) :
    ∃ s' t', (∀ ops, Runs (interpretCommand files maxLen (depth + 1) (byte 'd' :: rest)) (s.withOps ops)
        (answer m (.remove (firstWord rest))) s') ∧
      Holds s' t' (effect m (.remove (firstWord rest))) := by
  have first := scanWord_eq (Nat.le_of_lt_succ short)
  obtain ⟨s', t', run, shape', mallocs', lookup'⟩ := holds.shape.runs_dbRemove (firstWord rest)
  refine ⟨s', t', fun ops => ?_, shape', mallocs'.trans holds.mallocs, ?_, ?_⟩
  · simp only [interpretCommand, if_neg (length_of_word word), first, if_neg word, if_neg byte_letters.2.1,
      if_neg byte_letters.2.2, ↓reduceIte]
    refine (run ops).bind fun ops => ?_
    rw [holds.lookup, answer]
    by_cases unbound : m (firstWord rest) = none
    · rw [if_pos unbound, if_pos unbound, if_neg (by decide)]
      exact Runs.pure _ _
    · rw [if_neg unbound, if_neg unbound, if_pos (by decide)]
      exact Runs.pure _ _
  · intro k
    rw [lookup', holds.lookup, effect, Function.update_apply]
  · intro k v bound
    rw [effect, Function.update_apply] at bound
    by_cases same : k = firstWord rest
    · rw [if_pos same] at bound
      cases bound
    · rw [if_neg same] at bound
      exact holds.tokens k v bound

end

theorem Holds.runs_interpretCommand {m : Bindings} {command : CString} (holds : Holds s t m)
    (files : CString → Option CString) (depth : Nat) (plain : Plain command) :
    ∃ s' t', (∀ ops, Runs (interpretCommand files maxLen (depth + 1) command) (s.withOps ops) (answer m (parse command)) s') ∧
      Holds s' t' (effect m (parse command)) := by
  obtain ⟨length, c, rest, rfl, letter⟩ := plain
  have short : rest.length < maxLen := by
    simp only [List.length_cons] at length
    simp only [maxLen]
    omega
  by_cases empty : firstWord rest = []
  · rw [parse, if_pos empty]
    exact ⟨s, t, runs_noWord files depth short letter empty, holds⟩
  rcases letter with rfl | rfl | rfl
  · have parsed : parse (byte 'q' :: rest) = .query (firstWord rest) := by
      rw [parse, if_neg empty, if_pos rfl]
    rw [parsed]
    exact ⟨s, t, holds.runs_query files depth short empty, holds⟩
  · by_cases missing : firstWord (afterWord rest) = []
    · have parsed : parse (byte 'a' :: rest) = .illFormed := by
        rw [parse, if_neg empty, if_neg byte_letters.1, if_pos rfl, if_pos missing]
      rw [parsed]
      exact ⟨s, t, runs_noValue files depth short empty missing, holds⟩
    · have parsed : parse (byte 'a' :: rest) = .add (firstWord rest) (firstWord (afterWord rest)) := by
        rw [parse, if_neg empty, if_neg byte_letters.1, if_pos rfl, if_neg missing]
      rw [parsed]
      exact holds.runs_add files depth short empty missing
  · have parsed : parse (byte 'd' :: rest) = .remove (firstWord rest) := by
      rw [parse, if_neg empty, if_neg byte_letters.2.1, if_neg byte_letters.2.2, if_pos rfl]
    rw [parsed]
    exact holds.runs_remove files depth short empty

/-! ### Whole sessions -/

theorem Holds.runs_interpretAll (files : CString → Option CString) (depth : Nat) (commands : List CString) :
    ∀ {s : Store} {t : KeyTree} {m : Bindings}, Holds s t m → (∀ command ∈ commands, Plain command) →
      ∃ s' t', (∀ ops, Runs (interpretAll files maxLen (depth + 1) commands) (s.withOps ops) (answers m commands) s') ∧
        Holds s' t' (bindings m commands) := by
  induction commands with
  | nil =>
    intro s t m holds _
    exact ⟨s, t, fun ops => Runs.pure _ _, holds⟩
  | cons command commands ih =>
    intro s t m holds plain
    obtain ⟨s₁, t₁, first, holds₁⟩ := holds.runs_interpretCommand files depth (plain command List.mem_cons_self)
    obtain ⟨s', t', rest, holds'⟩ := ih holds₁ fun c member => plain c (List.mem_cons_of_mem _ member)
    refine ⟨s', t', fun ops => ?_, holds'⟩
    rw [interpretAll]
    refine (first ops).bind fun ops => ?_
    exact (rest ops).bind fun ops => Runs.pure _ _

theorem holds_empty : Holds Store.empty .nil fun _ => none := ⟨shape_empty, rfl, fun _ => rfl, by simp⟩

theorem token_ne_notFound {v : CString} (token : Token v) : v ≠ text "not found" := by
  intro equal
  have blank : (32 : UInt8) ∈ text "not found" := by decide
  have visible := token.2 32 (equal ▸ blank)
  cases visible

/-- The responses to any session are those of the abstract database. The store that it leaves
holds a search tree in `strcmp` order with exactly the bindings of the map, and a query of it
answers `not found` exactly for unbound keys. -/
theorem interpretAll_refines (files : CString → Option CString) (depth : Nat) (commands : List CString)
    (plain : ∀ command ∈ commands, Plain command) :
    ∃ s' t, interpretAll files maxLen (depth + 1) commands Store.empty = .ok (answers (fun _ => none) commands, s') ∧
      Shape s' t ∧ t.keys.Pairwise (fun j k => strcmp j k < 0) ∧
      (∀ key, t.lookup key = bindings (fun _ => none) commands key) ∧
      ∀ query rest, Plain query → query = byte 'q' :: rest → firstWord rest ≠ [] →
        ∃ response s'', interpretCommand files maxLen (depth + 1) query s' = .ok (response, s'') ∧
          (response = text "not found" ↔ bindings (fun _ => none) commands (firstWord rest) = none) := by
  obtain ⟨s', t, run, holds⟩ := Holds.runs_interpretAll files depth commands holds_empty plain
  obtain ⟨ops, final⟩ := run []
  refine ⟨s'.withOps ops, t, final, holds.shape.withOps ops, ?_, holds.lookup, ?_⟩
  · apply ((ordered_iff t).mp holds.shape.ordered).imp
    intro j k less
    exact (strcmp_neg j k).mpr less
  · intro query rest queryPlain isQuery word
    obtain ⟨s'', t', answered, _⟩ := holds.runs_interpretCommand files depth queryPlain
    obtain ⟨ops', response⟩ := answered ops
    refine ⟨_, _, response, ?_⟩
    have parsed : parse query = .query (firstWord rest) := by
      rw [isQuery, parse, if_neg word, if_pos rfl]
    rw [parsed, answer]
    cases bound : bindings (fun _ => none) commands (firstWord rest) with
    | none => simp
    | some v => simpa using token_ne_notFound (holds.tokens _ v bound)

theorem interpretAll_refines_session :
    ∃ s' t, interpretAll (fun _ => none) maxLen 1 [text "a m 1", text "a c 2", text "a t 3", text "d m", text "q t"]
        Store.empty = .ok ([text "added", text "added", text "added", text "removed", text "3"], s') ∧ Shape s' t := by
  have plain : ∀ command ∈ [text "a m 1", text "a c 2", text "a t 3", text "d m", text "q t"], Plain command := by
    intro command member
    simp only [List.mem_cons, List.not_mem_nil, or_false] at member
    rcases member with rfl | rfl | rfl | rfl | rfl <;> exact ⟨by decide, _, _, rfl, by decide⟩
  obtain ⟨s', t, run, shape, _⟩ := interpretAll_refines (fun _ => none) 0 _ plain
  have expected : answers (fun _ => none) [text "a m 1", text "a c 2", text "a t 3", text "d m", text "q t"] =
      [text "added", text "added", text "added", text "removed", text "3"] := by decide
  rw [expected] at run
  exact ⟨s', t, run, shape⟩

end Cs1330.Db
