import Cs1330.Lib.CString

/-!
# The database

`db.c` over a heap of nodes. Every access to a node goes through `node`, which faults when the
node has been destroyed; `ops` records the lock operations and accesses of a call in order. The
stretches of code that stand between two lock operations are functions of their own
(`childFor`, `addUnder`, `unlinkNode`), because they are the atomic steps of a thread.
-/

namespace Cs1330.Db

abbrev NodeId := Nat

structure Node where
  key : CString
  value : CString
  lchild : Option NodeId
  rchild : Option NodeId
  deriving DecidableEq, Repr

inductive Mode where
  | read | write
  deriving DecidableEq, Repr

inductive Op where
  | lock (mode : Mode) (node : NodeId)
  | unlock (node : NodeId)
  | read (node : NodeId)
  | write (node : NodeId)
  | destroy (node : NodeId)
  deriving DecidableEq, Repr

inductive Fault where
  /-- A node was used after `node_destructor`. -/
  | destroyed (node : NodeId)
  /-- A walk went on for more steps than there are nodes. -/
  | endlessWalk
  /-- `f` commands nested deeper than the given depth. -/
  | nesting
  deriving DecidableEq, Repr

structure Store where
  nodes : NodeId → Option Node
  /-- The next address that `malloc` returns. -/
  fresh : NodeId
  /-- Outcomes of the coming `malloc` calls; those past the end of the list succeed. -/
  mallocs : List Bool
  ops : List Op

abbrev DbM := StateT Store (Except Fault)

def maxLen : Nat := 256

/-- The address of `head`, which is never freed. -/
def head : NodeId := 0

def note (op : Op) : DbM Unit := modify fun db => { db with ops := db.ops ++ [op] }

def getNode (n : NodeId) : DbM Node := do
  match (← get).nodes n with
  | some node => return node
  | none => throw (.destroyed n)

def putNode (n : NodeId) (node : Option Node) : DbM Unit :=
  modify fun db => { db with nodes := Function.update db.nodes n node }

/-- `n->field`. -/
def node (n : NodeId) : DbM Node := do
  note (.read n)
  getNode n

/-- `n->field = ...`. -/
def setNode (n : NodeId) (change : Node → Node) : DbM Unit := do
  note (.write n)
  putNode n (some (change (← getNode n)))

def rwlock (mode : Mode) (n : NodeId) : DbM Unit := do
  let _ ← getNode n
  note (.lock mode n)

def unlock (n : NodeId) : DbM Unit := do
  let _ ← getNode n
  note (.unlock n)

def malloc : DbM Bool := do
  match (← get).mallocs with
  | [] => return true
  | outcome :: rest =>
    modify fun db => { db with mallocs := rest }
    return outcome

def nodeConstructor (argKey argValue : CString) (argLeft argRight : Option NodeId) : DbM (Option NodeId) := do
  if argKey.length > maxLen ∨ argValue.length > maxLen then
    return none
  if !(← malloc) then
    return none
  if !(← malloc) then
    return none
  if !(← malloc) then
    return none
  let n := (← get).fresh
  modify fun db => { db with fresh := n + 1 }
  putNode n (some ⟨snprintf maxLen argKey, snprintf maxLen argValue, argLeft, argRight⟩)
  return some n

def nodeDestructor (n : NodeId) : DbM Unit := do
  let _ ← getNode n
  note (.destroy n)
  putNode n none

def dbCleanupRecurs : Nat → Option NodeId → DbM Unit
  | 0, _ => throw .endlessWalk
  | _ + 1, none => return ()
  | rounds + 1, some n => do
    dbCleanupRecurs rounds (← node n).lchild
    dbCleanupRecurs rounds (← node n).rchild
    nodeDestructor n

def dbCleanup : DbM Unit := do
  let rounds := (← get).fresh
  dbCleanupRecurs rounds (← node head).lchild
  dbCleanupRecurs rounds (← node head).rchild

/-- The child of `parent` on the side of `key`. -/
def childFor (key : CString) (parent : NodeId) : DbM (Option NodeId) := do
  if strcmp key (← node parent).key < 0 then
    return (← node parent).lchild
  else
    return (← node parent).rchild

def setChildFor (key : CString) (parent : NodeId) (child : Option NodeId) : DbM Unit := do
  if strcmp key (← node parent).key < 0 then
    setNode parent fun n => { n with lchild := child }
  else
    setNode parent fun n => { n with rchild := child }

/-- `search`; the second result is `*parentpp`, which the caller asked for or not. -/
def search (key : CString) (parentpp : Bool) (mode : Mode) : Nat → NodeId → DbM (Option NodeId × NodeId)
  | 0, _ => throw .endlessWalk
  | rounds + 1, parent => do
    let next ← childFor key parent
    match next with
    | some next =>
      rwlock mode next
      if strcmp key (← node next).key ≠ 0 then
        unlock parent
        return ← search key parentpp mode rounds next
    | none => pure ()
    if !parentpp then
      unlock parent
    return (next, parent)

/-- As many rounds as there can be nodes on a path. -/
def searchFrom (key : CString) (parentpp : Bool) (mode : Mode) (parent : NodeId) : DbM (Option NodeId × NodeId) := do
  search key parentpp mode (← get).fresh parent

def dbQuery (key : CString) (len : Nat) : DbM CString := do
  rwlock .write head
  let (target, _) ← searchFrom key false .read head
  match target with
  | none => return snprintf len (text "not found")
  | some target =>
    let result := snprintf len (← node target).value
    unlock target
    return result

/-- The end of `db_add`: a new node under `parent`, or a null child when there is no memory for it. -/
def addUnder (key value : CString) (parent : NodeId) : DbM Unit := do
  let newnode ← nodeConstructor key value none none
  setChildFor key parent newnode

def dbAdd (key value : CString) : DbM Int := do
  rwlock .write head
  let (target, parent) ← searchFrom key true .write head
  match target with
  | some target =>
    unlock parent
    unlock target
    return 0
  | none =>
    addUnder key value parent
    unlock parent
    return 1

inductive Side where
  | left | right
  deriving DecidableEq, Repr

/-- `*pnext = child`, where `pnext` points at a child field. -/
def setSlot (slot : NodeId × Side) (child : Option NodeId) : DbM Unit :=
  match slot.2 with
  | .left => setNode slot.1 fun n => { n with lchild := child }
  | .right => setNode slot.1 fun n => { n with rchild := child }

/-- The loop of `db_remove` down the `lchild` chain: the last node and the field that points at it. -/
def leftmost : Nat → NodeId → NodeId × Side → DbM (NodeId × (NodeId × Side))
  | 0, _, _ => throw .endlessWalk
  | rounds + 1, next, pnext => do
    match (← node next).lchild with
    | some nextl => leftmost rounds nextl (next, .left)
    | none => return (next, pnext)

/-- What `db_remove` does to the tree once it holds `parent` and `dnode`; the result is the node
that it destroys at the end. -/
def unlinkNode (parent dnode : NodeId) : DbM NodeId := do
  match (← node dnode).rchild with
  | none =>
    setChildFor (← node dnode).key parent (← node dnode).lchild
    return dnode
  | some right =>
    if (← node dnode).lchild = none then
      setChildFor (← node dnode).key parent (← node dnode).rchild
      return dnode
    let (next, pnext) ← leftmost (← get).fresh right (dnode, .right)
    setSlot pnext (← node next).rchild
    let key := (← node next).key
    let value := (← node next).value
    setNode dnode fun n => { n with key := snprintf maxLen key }
    setNode dnode fun n => { n with value := snprintf maxLen value }
    return next

def dbRemove (key : CString) : DbM Int := do
  rwlock .write head
  let (dnode, parent) ← searchFrom key true .write head
  match dnode with
  | none =>
    unlock parent
    return 0
  | some dnode =>
    let victim ← unlinkNode parent dnode
    unlock parent
    unlock dnode
    nodeDestructor victim
    return 1

/-! ### Printing -/

def printSpaces (lvl : Nat) : CString := List.replicate lvl (byte ' ')

/-- The line that `db_print_recurs` prints for a node. -/
def printLine (n : NodeId) : DbM CString :=
  if n = head then
    return text "(root)\n"
  else do
    return (← node n).key ++ text " " ++ (← node n).value ++ text "\n"

/-- `db_print_recurs`; the result is what it writes to `out`. -/
def dbPrintRecurs : Nat → Option NodeId → Nat → DbM CString
  | 0, _, _ => throw .endlessWalk
  | _ + 1, none, lvl => return printSpaces lvl ++ text "(null)\n"
  | rounds + 1, some n, lvl => do
    rwlock .read n
    let line ← printLine n
    let left ← dbPrintRecurs rounds (← node n).lchild (lvl + 1)
    let right ← dbPrintRecurs rounds (← node n).rchild (lvl + 1)
    unlock n
    return printSpaces lvl ++ line ++ left ++ right

/-- The database at start: only `head`, with empty key and value. -/
def Store.empty : Store := ⟨fun n => if n = head then some ⟨[], [], none, none⟩ else none, 1, [], []⟩

/-! ### Commands -/

/-- The lines that repeated `fgets` calls read. -/
def linesOf (size : Nat) : Nat → CString → List CString
  | 0, _ => []
  | _ + 1, [] => []
  | n + 1, input => (fgets size input).1 :: linesOf size n (fgets size input).2

/-- `interpret_command` with the contents of the readable files; `depth` bounds the nesting of
`f` commands. -/
def interpretCommand (files : CString → Option CString) (len : Nat) : Nat → CString → DbM CString
  | 0, _ => throw .nesting
  | depth + 1, command => do
    if command.length ≤ 1 then
      return snprintf len (text "ill-formed command")
    match command with
    | [] => return snprintf len (text "ill-formed command")
    | c :: rest =>
      if c = byte 'q' then
        match scanWord 255 rest with
        | none => return snprintf len (text "ill-formed command")
        | some (name, _) =>
          let response ← dbQuery name len
          if response.length = 0 then
            return snprintf len (text "not found")
          return response
      else if c = byte 'a' then
        match scanWord 255 rest with
        | none => return snprintf len (text "ill-formed command")
        | some (name, rest) =>
          match scanWord 255 rest with
          | none => return snprintf len (text "ill-formed command")
          | some (value, _) =>
            if (← dbAdd name value) ≠ 0 then
              return snprintf len (text "added")
            return snprintf len (text "already in database")
      else if c = byte 'd' then
        match scanWord 255 rest with
        | none => return snprintf len (text "ill-formed command")
        | some (name, _) =>
          if (← dbRemove name) ≠ 0 then
            return snprintf len (text "removed")
          return snprintf len (text "not in database")
      else if c = byte 'f' then
        match scanWord 255 rest with
        | none => return snprintf len (text "ill-formed command")
        | some (name, _) =>
          match files name with
          | none => return snprintf len (text "bad file name")
          | some contents =>
            for line in linesOf 256 (contents.length + 1) contents do
              let _ ← interpretCommand files len depth (line.takeWhile (· ≠ 0))
            return snprintf len (text "file processed")
      else
        return snprintf len (text "ill-formed command")

/-- Commands given one after another, and their responses. -/
def interpretAll (files : CString → Option CString) (len depth : Nat) : List CString → DbM (List CString)
  | [] => return []
  | command :: commands => do
    let response ← interpretCommand files len depth command
    let responses ← interpretAll files len depth commands
    return response :: responses

end Cs1330.Db
