/-
Checkpoints: the queue files of `echsd.c` and who is noted for one.

`chkpnts` has 16 nodes that are handed out in order, and `chkpntr` is the trie of the
users noted.  A trie holds the nodes themselves.  Taken as a map from the key it is
good for as long as no node is inserted that it holds already; from then on nothing is
known of it.  The nodes `chkpnta` keeps are reallocated as there get to be more of
them, and the trie over them is lost with that.

File operations succeed.  A queue file is known by the tasks it lists.
-/
import Echse.Owner

namespace Echse

/-- What a checkpoint looks at in a slot of `task_ht`; an `oid` of 0 marks an empty
slot. -/
structure Row where
  oid : Nat
  /-- `echs_task_owner`. -/
  owner : Nat
  /-- The task's stream has an event, which `echs_task_icalify` looks at. -/
  live : Bool
deriving DecidableEq, Repr

/-- The queue files: what `echsq_<u>.ics` lists, if it exists. -/
abbrev QueueFiles := Nat → Option (List Nat)

/-- `countof(chkpnts)`. -/
def nChkpnts : Nat := 16

/-- `chkpnts`, `ichkpnts` and `chkpntr`. -/
structure Chkpnts where
  /-- The key of each node. -/
  key : Nat → Nat
  ichkpnts : Nat
  /-- The nodes in the trie; nothing once a node was inserted twice. -/
  chkpntr : Option (List Nat)

def Chkpnts.ini : Chkpnts := ⟨fun _ => 0, 0, some []⟩

/-- `chkpntedp`, if the trie can be searched. -/
def chkpntedp (c : Chkpnts) (u : Nat) : Option Bool :=
  c.chkpntr.map fun nodes => nodes.any fun i => c.key i == u

/-- `add_chkpnt`. -/
def addChkpnt (c : Chkpnts) (u : Nat) : Chkpnts :=
  if c.ichkpnts < nChkpnts then
    let i := c.ichkpnts
    { key := Function.update c.key i u
      ichkpnts := i + 1
      chkpntr := c.chkpntr.bind fun nodes => if i ∈ nodes then none else some (i :: nodes) }
  else c

/-! ### Writing the files -/

/-- The tasks of `u` that `echs_task_icalify` puts on the wire. -/
def listed (u : Nat) (r : Row) : Bool := r.oid != 0 && r.owner == u && r.live

/-- `chkpnt1`: write the file of one user. -/
def chkpnt1 (tab : List Row) (u : Nat) (fs : QueueFiles) : QueueFiles :=
  Function.update fs u (some ((tab.filter (listed u)).map (·.oid)))

/-- A file `chkpnta` has open: the user, and the tasks written so far. -/
structure Seen where
  u : Nat
  out : List Nat
deriving DecidableEq, Repr

/-- What `echs_task_icalify` writes of a task. -/
def icalified (r : Row) : List Nat := if r.live then [r.oid] else []

/-- Write a task to the file of its owner. -/
def seenWrite (r : Row) (snds : List Seen) : List Seen :=
  snds.map fun s => if s.u = r.owner then { s with out := s.out ++ icalified r } else s

/-- The scan of `chkpnta` over the table; nothing if the nodes were reallocated. -/
def chkpntaScan : List Row → List Seen → Option (List Seen)
  | [], snds => some snds
  | r :: tab, snds =>
      if r.oid = 0 then chkpntaScan tab snds
      -- grml, no owner
      else if r.owner = notAUid then chkpntaScan tab snds
      else if snds.any (·.u == r.owner) then
        chkpntaScan tab (seenWrite r snds)
      else if snds.length < nChkpnts then
        chkpntaScan tab (snds ++ [⟨r.owner, icalified r⟩])
      else none

/-- `chkpnta`: write the files of all users in the table. -/
def chkpnta (tab : List Row) (fs : QueueFiles) : Option QueueFiles :=
  (chkpntaScan tab []).map fun snds =>
    snds.foldl (fun fs s => Function.update fs s.u (some s.out)) fs

/-- `chkpnt`. -/
def chkpnt (tab : List Row) (c : Chkpnts) (fs : QueueFiles) : Option (Chkpnts × QueueFiles) :=
  if c.ichkpnts ≥ nChkpnts then
    (chkpnta tab fs).map fun fs => ({ c with ichkpnts := 0 }, fs)
  else
    some ({ c with ichkpnts := 0 },
      (List.range c.ichkpnts).foldl (fun fs i => chkpnt1 tab (c.key i) fs) fs)

/-! ### Queue requests -/

/-- `cmd_http` on a queue request of `u` without parameters: the file sent, if it
exists. -/
def queueRequest (tab : List Row) (c : Chkpnts) (fs : QueueFiles) (u : Nat) :
    Option (Chkpnts × QueueFiles × Option (List Nat)) := do
  let noted ← chkpntedp c u
  let (c, fs) ← if noted then chkpnt tab c fs else some (c, fs)
  some (c, fs, fs u)

/-- The task table, the checkpoint slots and the queue files. -/
structure Queues where
  tab : List Row
  chk : Chkpnts
  files : QueueFiles

inductive QueueAct where
  /-- The tasks of `u` change, and the table with them. -/
  | change (u : Nat) (tab : List Row)
  /-- `cptim_cb`. -/
  | timer
  /-- A queue request of `u`. -/
  | request (u : Nat)

/-- The tasks in the table that are not those of `u`. -/
def notOf (u : Nat) (tab : List Row) : List Row :=
  tab.filter fun r => r.oid != 0 && r.owner != u

/-- One action on the queues; nothing is known of them any more once the trie or the
nodes are lost. -/
def queueStep (s : Option Queues) (a : QueueAct) : Option (Option Queues) :=
  match s, a with
  | none, _ => some none
  | some q, .change u tab =>
      if (notOf u q.tab).isPerm (notOf u tab) then
        some (some { q with tab := tab, chk := addChkpnt q.chk u })
      else none
  | some q, .timer =>
      some ((chkpnt q.tab q.chk q.files).map fun r => { q with chk := r.1, files := r.2 })
  | some q, .request u =>
      some ((queueRequest q.tab q.chk q.files u).map fun r => { q with chk := r.1, files := r.2.1 })

end Echse
