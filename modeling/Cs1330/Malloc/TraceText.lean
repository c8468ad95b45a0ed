import Cs1330.Malloc.TraceFile

/-!
# The text of a trace file

What `checktrace.pl` and `read_trace` make of a file in the format of the traces directory: the script
works on the requests as `checktrace` does, and `read_trace` stores them as they stand.
-/

namespace Cs1330.Malloc
open Machine

variable {f : TraceFile} {op : TraceOp} {ops : List TraceOp} {rest blank more : CString} {numOps : Int} {r : Reading}
  {index : Int} {ids : List Int} {linenum : Nat}

/-! ### Words of the format -/

theorem isspace_space : isspace (byte ' ') = true := by decide

theorem isspace_newline : ∀ c ∈ [byte '\n'], isspace c = true := by
  intro c member
  obtain rfl := List.mem_singleton.mp member
  decide

theorem visible_decimal {n : Nat} : ∀ c ∈ decimal n, isspace c = false :=
  fun _ member => isspace_digit (isDigit_decimal member)

theorem words_decimal (n : Nat) : words (decimal n) = [decimal n] := words_word (decimal_ne_nil n) visible_decimal

theorem words_pair {word : CString} (nonempty : word ≠ []) (visible : ∀ c ∈ word, isspace c = false) (n m : Nat) :
    words (word ++ byte ' ' :: (decimal n ++ byte ' ' :: decimal m)) = [word, decimal n, decimal m] := by
  rw [words_cons nonempty visible isspace_space, words_cons (decimal_ne_nil n) visible_decimal isspace_space, words_decimal]

theorem words_single {word : CString} (nonempty : word ≠ []) (visible : ∀ c ∈ word, isspace c = false) (n : Nat) :
    words (word ++ byte ' ' :: decimal n) = [word, decimal n] := by
  rw [words_cons nonempty visible isspace_space, words_decimal]

theorem newline_not_decimal (n : Nat) : byte '\n' ∉ decimal n := by
  intro member
  have digit := isDigit_decimal member
  cases digit

theorem newline_not_line (op : TraceOp) : byte '\n' ∉ op.line := by
  have absent := newline_not_decimal
  cases op with
  | alloc index size =>
    simp only [TraceOp.line, List.mem_append, List.mem_cons, absent, or_false]
    decide
  | realloc index size =>
    simp only [TraceOp.line, List.mem_append, List.mem_cons, absent, or_false]
    decide
  | free index =>
    simp only [TraceOp.line, List.mem_append, List.mem_cons, absent, or_false]
    decide

theorem lines_text (f : TraceFile) : lines f.text =
    [decimal f.suggHeapsize, decimal f.numIds, decimal f.numOps, decimal f.weight] ++ f.ops.map TraceOp.line := by
  apply lines_flatMap
  intro line member
  simp only [List.mem_append, List.mem_cons, List.not_mem_nil, or_false, List.mem_map] at member
  rcases member with (rfl | rfl | rfl | rfl) | ⟨op, _, rfl⟩
  · exact newline_not_decimal _
  · exact newline_not_decimal _
  · exact newline_not_decimal _
  · exact newline_not_decimal _
  · exact newline_not_line op

/-! ### `checktrace.pl` on a file of the format -/

/-- `%HASH` while only `a` requests enter it. -/
def hashOf (ids : List Int) : Hash := ids.map fun id => (decimal id.toNat, text "a")

theorem decimal_toNat_inj {i j : Int} (iLow : 0 ≤ i) (jLow : 0 ≤ j) : decimal i.toNat = decimal j.toNat ↔ i = j := by
  rw [decimal_injective.eq_iff]
  omega

theorem lookup_hashOf (low : 0 ≤ index) (lows : ∀ id ∈ ids, 0 ≤ id) :
    (hashOf ids).lookup (decimal index.toNat) = if index ∈ ids then some (text "a") else none := by
  induction ids with
  | nil => rfl
  | cons id ids ih =>
    have rest := ih fun j member => lows j (List.mem_cons_of_mem _ member)
    rw [hashOf, List.map_cons, List.lookup_cons]
    by_cases same : index = id
    · rw [same]
      simp
    · have different : (decimal index.toNat == decimal id.toNat) = false := by
        rw [beq_eq_false_iff_ne, ne_eq, decimal_toNat_inj low (lows id List.mem_cons_self)]
        exact same
      rw [different]
      show (hashOf ids).lookup _ = _
      rw [rest]
      simp [same]

theorem delete_hashOf (low : 0 ≤ index) (lows : ∀ id ∈ ids, 0 ≤ id) :
    (hashOf ids).delete (decimal index.toNat) = hashOf (ids.filter fun id => id != index) := by
  rw [hashOf, Hash.delete, List.filter_map, hashOf]
  congr 1
  apply List.filter_congr
  intro id member
  simp only [ne_eq, Function.comp, decimal_toNat_inj (lows id member) low, bne, decide_not, beq_eq_decide]

/-- The command of a request. -/
def TraceOp.cmd : TraceOp → CString
  | .alloc _ _ => text "a"
  | .realloc _ _ => text "r"
  | .free _ => text "f"

theorem visible_cmd (op : TraceOp) : op.cmd ≠ [] ∧ (∀ c ∈ op.cmd, isspace c = false) ∧ op.cmd.length < 1024 := by
  have letters : ∀ cmd ∈ [text "a", text "r", text "f"],
      cmd ≠ [] ∧ (∀ c ∈ cmd, isspace c = false) ∧ cmd.length < 1024 := by decide +kernel
  apply letters
  cases op <;> simp [TraceOp.cmd]

theorem words_line (op : TraceOp) : ∃ others, words op.line = op.cmd :: decimal op.index.toNat :: others := by
  obtain ⟨nonempty, visible, _⟩ := visible_cmd op
  cases op with
  | alloc index size => exact ⟨_, words_pair nonempty visible _ _⟩
  | realloc index size => exact ⟨_, words_pair nonempty visible _ _⟩
  | free index => exact ⟨_, words_single nonempty visible _⟩

theorem truthy_cmd (op : TraceOp) : truthy (some op.cmd) = true := by cases op <;> rfl

section Request

variable {hash : Hash} {id : CString}

theorem request_alloc (absent : hash.lookup id = none) : hash.request linenum (text "a") id = .ok (hash.store id (text "a")) := by
  simp only [Hash.request, absent]
  rfl

theorem request_alloc_twice (present : hash.lookup id = some (text "a")) :
    hash.request linenum (text "a") id = .error (.allocateTwice linenum) := by
  simp only [Hash.request, present]
  rfl

theorem request_realloc (present : hash.lookup id = some (text "a")) : hash.request linenum (text "r") id = .ok hash := by
  simp only [Hash.request, present]
  rfl

theorem request_realloc_unknown (absent : hash.lookup id = none) :
    hash.request linenum (text "r") id = .error (.reallocWithoutAlloc linenum) := by
  simp only [Hash.request, absent]
  rfl

theorem request_free (present : hash.lookup id = some (text "a")) :
    hash.request linenum (text "f") id = .ok (hash.delete id) := by
  simp only [Hash.request, present]
  rfl

theorem request_free_unknown (absent : hash.lookup id = none) :
    hash.request linenum (text "f") id = .error (.freeingUnallocated linenum) := by
  simp only [Hash.request, absent]
  rfl

end Request

theorem request_tallied (low : 0 ≤ op.index) (lows : ∀ id ∈ ids, 0 ≤ id) (tallied : Tallied ids op) :
    (hashOf ids).request linenum op.cmd (decimal op.index.toNat) = .ok (hashOf (tally ids op)) := by
  have found := lookup_hashOf low lows
  have deleted := delete_hashOf low lows
  cases op with
  | alloc index size =>
    have kept : ids.filter (fun id => id != index) = ids := by
      rw [List.filter_eq_self]
      intro id member
      simp only [bne_iff_ne]
      rintro rfl
      exact tallied member
    refine (request_alloc (found.trans (if_neg tallied))).trans ?_
    show Except.ok ((_, text "a") :: (hashOf ids).delete _) = _
    rw [deleted]
    show Except.ok (_ :: hashOf (ids.filter fun id => id != index)) = _
    rw [kept]
    rfl
  | realloc index size => exact request_realloc (found.trans (if_pos tallied))
  | free index => exact (request_free (found.trans (if_pos tallied))).trans (congrArg Except.ok deleted)

theorem request_untallied (linenum : Nat) (low : 0 ≤ op.index) (lows : ∀ id ∈ ids, 0 ≤ id)
    (untallied : ¬Tallied ids op) : ∃ died, (hashOf ids).request linenum op.cmd (decimal op.index.toNat) = .error died := by
  have found := lookup_hashOf low lows
  cases op with
  | alloc index size => exact ⟨_, request_alloc_twice (found.trans (if_pos (not_not.mp untallied)))⟩
  | realloc index size => exact ⟨_, request_realloc_unknown (found.trans (if_neg untallied))⟩
  | free index => exact ⟨_, request_free_unknown (found.trans (if_neg untallied))⟩

theorem checktrace_cons : checktrace ids (op :: ops) = true ↔ Tallied ids op ∧ checktrace (tally ids op) ops = true := by
  cases op <;> simp [checktrace, Tallied]

/-- An outstanding id is that of a request. -/
theorem tally_all {P : Int → Prop} (here : P op.index) (all : ∀ id ∈ ids, P id) : ∀ id ∈ tally ids op, P id := by
  intro id member
  cases op with
  | alloc index size =>
    rcases List.mem_cons.mp member with rfl | old
    · exact here
    · exact all id old
  | realloc index size => exact all id member
  | free index => exact all id (List.mem_filter.mp member).1

theorem tallied_all {P : Int → Prop} (each : ∀ op ∈ ops, P op.index) (all : ∀ id ∈ ids, P id) :
    ∀ id ∈ ops.foldl tally ids, P id := by
  induction ops generalizing ids with
  | nil => exact all
  | cons op ops ih =>
    exact ih (fun op member => each op (List.mem_cons_of_mem _ member)) (tally_all (each op List.mem_cons_self) all)

theorem checkLines_line (rest : List CString) : checkLines linenum (hashOf ids) (op.line :: rest) =
    ((hashOf ids).request (linenum + 1) op.cmd (decimal op.index.toNat)).bind fun hash =>
      (checkLines (linenum + 1) hash rest).bind fun checked => .ok (op.line :: checked.1, checked.2) := by
  obtain ⟨others, split⟩ := words_line op
  rw [checkLines, split]
  simp only [List.getElem?_cons_zero, List.getElem?_cons_succ, Option.getD_some, truthy_cmd, if_true]
  rfl

theorem checkLines_lines (linenum : Nat) (lows : ∀ id ∈ ids, 0 ≤ id) (printable : ∀ op ∈ ops, op.Printable)
    (accepted : checktrace ids ops = true) :
    checkLines linenum (hashOf ids) (ops.map TraceOp.line) = .ok (ops.map TraceOp.line, hashOf (ops.foldl tally ids)) := by
  induction ops generalizing ids linenum with
  | nil => rfl
  | cons op ops ih =>
    obtain ⟨tallied, accepted⟩ := checktrace_cons.mp accepted
    have low := (printable op List.mem_cons_self).1.1
    rw [List.map_cons, checkLines_line, request_tallied low lows tallied]
    show (checkLines (linenum + 1) (hashOf (tally ids op)) (ops.map TraceOp.line)).bind _ = _
    rw [ih (linenum + 1) (tally_all low lows) (fun op member => printable op (List.mem_cons_of_mem _ member)) accepted]
    rfl

theorem checkLines_rejects (linenum : Nat) (lows : ∀ id ∈ ids, 0 ≤ id) (printable : ∀ op ∈ ops, op.Printable)
    (rejected : checktrace ids ops ≠ true) :
    ∃ died, checkLines linenum (hashOf ids) (ops.map TraceOp.line) = .error died := by
  induction ops generalizing ids linenum with
  | nil => exact absurd rfl rejected
  | cons op ops ih =>
    have low := (printable op List.mem_cons_self).1.1
    rw [List.map_cons, checkLines_line]
    by_cases tallied : Tallied ids op
    · obtain ⟨died, later⟩ := ih (linenum + 1) (tally_all low lows)
        (fun op member => printable op (List.mem_cons_of_mem _ member))
        fun accepted => rejected (checktrace_cons.mpr ⟨tallied, accepted⟩)
      refine ⟨died, ?_⟩
      rw [request_tallied low lows tallied]
      show (checkLines (linenum + 1) (hashOf (tally ids op)) (ops.map TraceOp.line)).bind _ = _
      rw [later]
      rfl
    · obtain ⟨died, now⟩ := request_untallied (linenum + 1) low lows tallied
      exact ⟨died, by rw [now]; rfl⟩

theorem sortedKeys_hashOf (ops : List TraceOp) :
    (hashOf (outstandingIds ops)).sortedKeys = (residue ops).map fun id => decimal id.toNat := by
  rw [residue, List.map_mergeSort (s := fun a b => decide (a ≤ b)) (fun _ _ _ _ => rfl), Hash.sortedKeys, hashOf, List.map_map]
  rfl

theorem signed_addOps (n m : Nat) : signed (addOps (decimal n) m) = decimal (n + m) := by
  have scanned : scanInteger (decimal n) = (some (n : Int), []) := by
    have read : scanInteger ([] ++ (decimal n ++ [])) = (some (n : Int), []) := scanInteger_decimal (by simp) (by simp)
    rwa [List.nil_append, List.append_nil] at read
  have sum : addOps (decimal n) m = ((n + m : Nat) : Int) := by
    rw [addOps, scanned]
    rfl
  rw [sum, signed, if_neg (by omega), Int.natAbs_natCast]

theorem checktracePl_text (printable : f.Printable) (accepted : checktrace [] f.ops = true) :
    checktracePl false f.text = .ok f.balanced.text ∧
      checktracePl true f.text = .ok (if residue f.ops = [] then text "Balanced trace.\n" else text "Unbalanced tree.\n") := by
  have all : (hashOf (outstandingIds f.ops)).all (fun entry => entry.2 = text "a" ∨ entry.2 = text "r") = true := by
    rw [List.all_eq_true]
    intro entry member
    obtain ⟨id, _, rfl⟩ := List.mem_map.mp member
    simp
  have size : (hashOf (outstandingIds f.ops)).length = (residue f.ops).length := by simp [hashOf, residue]
  have empty : hashOf (outstandingIds f.ops) = [] ↔ residue f.ops = [] := by
    rw [← List.length_eq_zero_iff, size, List.length_eq_zero_iff]
  have run : checkLines 4 [] (f.ops.map TraceOp.line) = .ok (f.ops.map TraceOp.line, hashOf (outstandingIds f.ops)) :=
    checkLines_lines 4 (by simp) printable.ops accepted
  have frees : (residue f.ops).map (fun id => text "f " ++ decimal id.toNat) =
      ((residue f.ops).map TraceOp.free).map TraceOp.line := by
    rw [List.map_map]
    rfl
  unfold checktracePl
  rw [lines_text]
  constructor
  · show (checkLines 4 [] (f.ops.map TraceOp.line)).bind _ = _
    rw [run]
    show (if (hashOf (outstandingIds f.ops)).all _ = true then _ else _) = _
    rw [if_pos all, sortedKeys_hashOf]
    show Except.ok (printLines ([_, _, signed (addOps (decimal f.numOps) (hashOf (outstandingIds f.ops)).length), _] ++ _ ++ _)) = _
    rw [size, signed_addOps, List.map_map, show (fun key => text "f " ++ key) ∘ (fun id : Int => decimal id.toNat) =
      fun id : Int => text "f " ++ decimal id.toNat from rfl, frees, List.append_assoc, ← List.map_append]
    rfl
  · show (checkLines 4 [] (f.ops.map TraceOp.line)).bind _ = _
    rw [run]
    show Except.ok (if hashOf (outstandingIds f.ops) = [] then _ else _) = _
    simp only [empty]

theorem checktracePl_rejects (printable : f.Printable) (rejected : checktrace [] f.ops ≠ true) (summary : Bool) :
    ∃ died, checktracePl summary f.text = .error died := by
  obtain ⟨died, run⟩ : ∃ died, checkLines 4 [] (f.ops.map TraceOp.line) = .error died :=
    checkLines_rejects 4 (by simp) printable.ops rejected
  refine ⟨died, ?_⟩
  unfold checktracePl
  rw [lines_text]
  show (checkLines 4 [] (f.ops.map TraceOp.line)).bind _ = _
  rw [run]
  rfl

/-! ### `read_trace` on a file of the format -/

/-- What stands behind the command of a request. -/
def TraceOp.fields : TraceOp → CString
  | .alloc index size => byte ' ' :: (decimal index.toNat ++ byte ' ' :: decimal size.toNat)
  | .realloc index size => byte ' ' :: (decimal index.toNat ++ byte ' ' :: decimal size.toNat)
  | .free index => byte ' ' :: decimal index.toNat

theorem line_eq (op : TraceOp) : op.line = op.cmd ++ op.fields := by cases op <;> rfl

/-- The variables behind a request that is stored. -/
def Reading.after (r : Reading) : TraceOp → Reading
  | .alloc index size => ⟨index, size, max r.maxIndex index, r.ops ++ [.alloc index size]⟩
  | .realloc index size => ⟨index, size, max r.maxIndex index, r.ops ++ [.realloc index size]⟩
  | .free index => ⟨index, r.size, r.maxIndex, r.ops ++ [.free index]⟩

theorem isDigit_blank : isDigit (byte ' ') = false ∧ isDigit (byte '\n') = false := by decide

theorem scanField_decimal {n : Nat} (white : ∀ c ∈ blank, isspace c = true) (stop : ∀ c ∈ rest.head?, isDigit c = false)
    (small : n ≤ intMax) : scanField (blank ++ (decimal n ++ rest)) = .ok (some (n : Int), rest) := by
  rw [scanField, scanInteger_decimal white stop]
  exact if_pos ⟨by omega, small⟩

theorem scanUnsigned_decimal {n : Int} (old : Int) (white : ∀ c ∈ blank, isspace c = true)
    (stop : ∀ c ∈ rest.head?, isDigit c = false) (low : 0 ≤ n) (small : n ≤ intMax) :
    scanUnsigned old (blank ++ (decimal n.toNat ++ rest)) = .ok (true, n, rest) := by
  have value : ((n.toNat : Nat) : Int) = n := Int.toNat_of_nonneg low
  unfold intMax at small
  rw [scanUnsigned, scanInteger_decimal white stop, value]
  simp only
  rw [if_pos (by omega), Int.emod_eq_of_lt low (by omega)]

theorem scanPair_decimal {n m : Int} (index size : Int) (low : 0 ≤ n) (small : n ≤ intMax) (low' : 0 ≤ m)
    (small' : m ≤ intMax) (stop : ∀ c ∈ rest.head?, isDigit c = false) :
    scanPair index size (byte ' ' :: (decimal n.toNat ++ byte ' ' :: (decimal m.toNat ++ rest))) = .ok (n, m, rest) := by
  have space : ∀ c ∈ [byte ' '], isspace c = true := by simp [isspace_space]
  have next : ∀ c ∈ (byte ' ' :: (decimal m.toNat ++ rest)).head?, isDigit c = false := by simp [isDigit_blank]
  have first := scanUnsigned_decimal index space next low small
  have second := scanUnsigned_decimal size space stop low' small'
  rw [List.singleton_append] at first second
  unfold scanPair
  rw [first]
  show (scanUnsigned size (byte ' ' :: (decimal m.toNat ++ rest))).bind _ = _
  rw [second]
  rfl

theorem scanFreed_decimal {index n : Int} (low : 0 ≤ n) (small : n ≤ intMax) :
    scanFreed index (byte ' ' :: (decimal n.toNat ++ byte '\n' :: more)) = .ok (n, byte '\n' :: more) := by
  have space : ∀ c ∈ [byte ' '], isspace c = true := by simp [isspace_space]
  have next : ∀ c ∈ (byte '\n' :: more).head?, isDigit c = false := by simp [isDigit_blank]
  have read := scanUnsigned_decimal index space next low small
  rw [List.singleton_append] at read
  unfold scanFreed
  rw [read]
  rfl

theorem wrap_int {n : Int} (low : 0 ≤ n) (small : n ≤ intMax) : wrap 32 n = n := by
  unfold intMax at small
  exact wrap_int_small low (by omega)

theorem request_line (printable : op.Printable) : r.request numOps op.cmd (op.fields ++ byte '\n' :: more) =
    if r.ops.length < numOps then .ok (r.after op, byte '\n' :: more) else .error (.beyondOps r.ops.length) := by
  have stop : ∀ c ∈ (byte '\n' :: more).head?, isDigit c = false := by simp [isDigit_blank]
  have pair : ∀ n m : Int, 0 ≤ n → n ≤ intMax → 0 ≤ m → m ≤ intMax →
      scanPair r.index r.size (byte ' ' :: (decimal n.toNat ++ byte ' ' :: decimal m.toNat) ++ byte '\n' :: more) =
        .ok (n, m, byte '\n' :: more) := by
    intro n m low small low' small'
    have read := scanPair_decimal r.index r.size low small low' small' stop
    simpa using read
  cases op with
  | alloc index size =>
    obtain ⟨⟨low, small⟩, sized⟩ : (0 ≤ index ∧ index ≤ intMax) ∧ 0 ≤ size ∧ size ≤ intMax := printable
    show (scanPair r.index r.size _).bind _ = _
    rw [TraceOp.fields, pair index size low small sized.1 sized.2]
    show (r.store numOps (.alloc (wrap 32 index) (wrap 32 size))).bind _ = _
    rw [wrap_int low small, wrap_int sized.1 sized.2, Reading.store]
    split <;> rfl
  | realloc index size =>
    obtain ⟨⟨low, small⟩, sized⟩ : (0 ≤ index ∧ index ≤ intMax) ∧ 0 ≤ size ∧ size ≤ intMax := printable
    show (scanPair r.index r.size _).bind _ = _
    rw [TraceOp.fields, pair index size low small sized.1 sized.2]
    show (r.store numOps (.realloc (wrap 32 index) (wrap 32 size))).bind _ = _
    rw [wrap_int low small, wrap_int sized.1 sized.2, Reading.store]
    split <;> rfl
  | free index =>
    obtain ⟨⟨low, small⟩, _⟩ : (0 ≤ index ∧ index ≤ intMax) ∧ _ := printable
    show (scanFreed r.index (byte ' ' :: (decimal index.toNat ++ byte '\n' :: more))).bind _ = _
    rw [scanFreed_decimal low small]
    show (r.store numOps (.free (wrap 32 index))).bind _ = _
    rw [wrap_int low small, Reading.store]
    split <;> rfl

theorem printLines_cons (line : CString) (list : List CString) :
    printLines (line :: list) = line ++ byte '\n' :: printLines list := by
  simp [printLines]

theorem after_ops (r : Reading) (op : TraceOp) : (r.after op).ops = r.ops ++ [op] := by cases op <;> rfl

theorem after_maxIndex (r : Reading) (op : TraceOp) : (r.after op).maxIndex = highest [op] r.maxIndex := by cases op <;> rfl

/-- One round of the loop in `read_trace`. -/
theorem readRequests_request {rounds : Nat} (numOps : Int) (r : Reading) (printable : op.Printable)
    (white : ∀ c ∈ blank, isspace c = true) :
    readRequests numOps (rounds + 1) r (blank ++ (op.line ++ byte '\n' :: more)) =
      if r.ops.length < numOps then readRequests numOps rounds (r.after op) (byte '\n' :: more)
      else .error (.beyondOps r.ops.length) := by
  obtain ⟨nonempty, visible, short⟩ := visible_cmd op
  have whole : op.line ++ byte '\n' :: more = op.cmd ++ (op.fields ++ byte '\n' :: more) := by
    rw [line_eq, List.append_assoc]
  have stop : ∀ c ∈ (op.fields ++ byte '\n' :: more).head?, isspace c = true := by
    cases op <;> simp [TraceOp.fields, isspace_space]
  have scanned := scanWord_word ((blank ++ (op.line ++ byte '\n' :: more)).length + 1) white nonempty visible stop
    (by rw [whole]; simp only [List.length_append]; omega)
  rw [← whole] at scanned
  rw [readRequests, scanned]
  simp only [if_pos short]
  rw [request_line printable]
  split <;> rfl

/-- The requests are stored one after another, as far as the array goes. -/
theorem readRequests_lines {rounds : Nat} (numOps : Int) (r : Reading) (printable : ∀ op ∈ ops, op.Printable)
    (white : ∀ c ∈ blank, isspace c = true) (enough : ops.length < rounds) :
    readRequests numOps rounds r (blank ++ printLines (ops.map TraceOp.line)) =
      if r.ops.length + ops.length ≤ numOps ∨ ops = [] then .ok (ops.foldl Reading.after r)
      else .error (.beyondOps (max r.ops.length numOps.toNat)) := by
  induction ops generalizing r blank rounds with
  | nil =>
    obtain ⟨rounds, rfl⟩ : ∃ n, rounds = n + 1 := ⟨rounds - 1, by simp at enough; omega⟩
    have empty : blank ++ printLines (([] : List TraceOp).map TraceOp.line) = blank := by simp [printLines]
    rw [empty, readRequests, scanWord_blank white, if_pos (Or.inr rfl)]
    rfl
  | cons op ops ih =>
    obtain ⟨rounds, rfl⟩ : ∃ n, rounds = n + 1 := ⟨rounds - 1, by simp at enough; omega⟩
    rw [List.map_cons, printLines_cons, readRequests_request numOps r (printable op List.mem_cons_self) white]
    by_cases fits : r.ops.length < numOps
    · rw [if_pos fits]
      have later := fun op member => printable op (List.mem_cons_of_mem _ member)
      have stored : (r.after op).ops.length = r.ops.length + 1 := by rw [after_ops]; simp
      have same : ((r.after op).ops.length + ops.length ≤ numOps ∨ ops = []) ↔
          (r.ops.length + (op :: ops).length ≤ numOps ∨ op :: ops = []) := by
        rw [stored, List.length_cons]
        constructor
        · rintro (room | rfl)
          · exact .inl (by omega)
          · exact .inl (by simp only [List.length_nil]; omega)
        · rintro (room | impossible)
          · exact .inl (by omega)
          · cases impossible
      rw [← List.singleton_append, ih (r.after op) later isspace_newline (by simpa using enough)]
      by_cases room : r.ops.length + (op :: ops).length ≤ numOps ∨ op :: ops = []
      · rw [if_pos room, if_pos (same.mpr room)]
        rfl
      · rw [if_neg room, if_neg (mt same.mp room), stored]
        congr 2
        omega
    · have full : ¬(r.ops.length + (op :: ops).length ≤ numOps ∨ op :: ops = []) := by
        simp only [List.length_cons, reduceCtorEq, or_false]
        omega
      rw [if_neg fits, if_neg full]
      congr 2
      omega

theorem foldl_after (ops : List TraceOp) (r : Reading) :
    (ops.foldl Reading.after r).ops = r.ops ++ ops ∧ (ops.foldl Reading.after r).maxIndex = highest ops r.maxIndex := by
  induction ops generalizing r with
  | nil => exact ⟨(List.append_nil _).symm, rfl⟩
  | cons op ops ih =>
    obtain ⟨stored, high⟩ := ih (r.after op)
    refine ⟨stored.trans ?_, high.trans ?_⟩
    · rw [after_ops, List.append_assoc]
      rfl
    · rw [after_maxIndex]
      rfl

theorem highest_bounds {init : Int} (each : ∀ op ∈ ops, 0 ≤ op.index ∧ op.index ≤ intMax) (low : 0 ≤ init)
    (high : init ≤ intMax) : 0 ≤ highest ops init ∧ highest ops init ≤ intMax := by
  induction ops generalizing init with
  | nil => exact ⟨low, high⟩
  | cons op ops ih =>
    obtain ⟨opLow, opHigh⟩ := each op List.mem_cons_self
    have later := fun op member => each op (List.mem_cons_of_mem _ member)
    cases op with
    | alloc index size => exact ih later (le_max_of_le_left low) (max_le high opHigh)
    | realloc index size => exact ih later (le_max_of_le_left low) (max_le high opHigh)
    | free index => exact ih later low high

theorem length_printLines (list : List CString) : list.length ≤ (printLines list).length := by
  induction list with
  | nil => exact Nat.zero_le _
  | cons line list ih =>
    rw [printLines_cons, List.length_append, List.length_cons, List.length_cons]
    omega

theorem text_eq (f : TraceFile) : f.text = decimal f.suggHeapsize ++ byte '\n' :: (decimal f.numIds ++ byte '\n' ::
    (decimal f.numOps ++ byte '\n' :: (decimal f.weight ++ byte '\n' :: printLines (f.ops.map TraceOp.line)))) := by
  simp only [TraceFile.text, List.cons_append, List.nil_append, printLines_cons]

/-- `read_trace` reads a file of the format when its header counts the requests and the ids. -/
theorem readTrace_text (printable : f.Printable) (read : TraceRead) :
    readTrace f.text = .ok read ↔ f.Counted ∧ read = ⟨f.numIds, f.ops⟩ := by
  have stop : ∀ more : CString, ∀ c ∈ (byte '\n' :: more).head?, isDigit c = false := by simp [isDigit_blank]
  have newline := isspace_newline
  have nothing : ∀ c ∈ ([] : CString), isspace c = true := by simp
  have first := scanField_decimal nothing (stop (decimal f.numIds ++ byte '\n' :: (decimal f.numOps ++
    byte '\n' :: (decimal f.weight ++ byte '\n' :: printLines (f.ops.map TraceOp.line))))) printable.suggHeapsize
  have second := scanField_decimal newline (stop (decimal f.numOps ++ byte '\n' :: (decimal f.weight ++
    byte '\n' :: printLines (f.ops.map TraceOp.line)))) printable.numIds
  have third := scanField_decimal newline (stop (decimal f.weight ++ byte '\n' :: printLines (f.ops.map TraceOp.line)))
    printable.numOps
  have fourth := scanField_decimal newline (stop (printLines (f.ops.map TraceOp.line))) printable.weight
  rw [List.nil_append, ← text_eq] at first
  rw [List.singleton_append] at second third fourth
  have enough : f.ops.length < (byte '\n' :: printLines (f.ops.map TraceOp.line)).length + 1 := by
    have counted := length_printLines (f.ops.map TraceOp.line)
    rw [List.length_map] at counted
    rw [List.length_cons]
    omega
  have requests := readRequests_lines f.numOps ⟨0, 0, 0, []⟩ printable.ops newline enough
  rw [List.singleton_append] at requests
  have sizes : ¬((f.numOps : Int) < 0 ∨ (f.numIds : Int) < 0) := by omega
  have opened : readTrace f.text = readRequests f.numOps ((byte '\n' :: printLines (f.ops.map TraceOp.line)).length + 1)
      ⟨0, 0, 0, []⟩ (byte '\n' :: printLines (f.ops.map TraceOp.line)) >>= fun r =>
        if wrap 32 r.maxIndex = f.numIds - 1 ∧ r.ops.length = (f.numOps : Int) then .ok ⟨f.numIds, r.ops⟩
        else .error .assertion :=
    (Run.except_seq first).trans ((Run.except_seq second).trans ((Run.except_seq third).trans ((Run.except_seq fourth).trans
      (if_neg sizes))))
  by_cases room : f.ops.length ≤ f.numOps
  · have fits : (0 : Nat) + f.ops.length ≤ (f.numOps : Int) ∨ f.ops = [] := .inl (by omega)
    obtain ⟨stored, high⟩ := foldl_after f.ops ⟨0, 0, 0, []⟩
    have stored : (f.ops.foldl Reading.after ⟨0, 0, 0, []⟩).ops = f.ops := stored
    obtain ⟨least, most⟩ := highest_bounds (fun op member => (printable.ops op member).1) (le_refl 0)
      (by decide : (0 : Int) ≤ intMax)
    rw [opened, Run.except_seq (requests.trans (if_pos fits)), stored, high, wrap_int least most]
    by_cases counted : highest f.ops 0 = f.numIds - 1 ∧ (f.ops.length : Int) = f.numOps
    · rw [if_pos counted, Except.ok.injEq, eq_comm]
      exact (and_iff_right ⟨by omega, by omega⟩).symm
    · rw [if_neg counted]
      refine iff_of_false (fun impossible => by cases impossible) ?_
      rintro ⟨⟨length, ids⟩, _⟩
      exact counted ⟨by omega, by omega⟩
  · have full : ¬((0 : Nat) + f.ops.length ≤ (f.numOps : Int) ∨ f.ops = []) := by
      rintro (fits | none)
      · omega
      · simp [none] at room
    rw [opened, requests.trans (if_neg full)]
    refine iff_of_false (fun impossible => by cases impossible) ?_
    rintro ⟨⟨length, _⟩, _⟩
    omega

end Cs1330.Malloc
