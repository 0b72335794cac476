/-
The pool of connections.

There are as many connections as `free_conns` has bits; a bit that is set stands
for a connection that is free.  The map is searched by `ffs`, which looks at an
`int`, so in two halves.
-/
import Echse.Lib.Runs
import Mathlib.Tactic

namespace Echse

/-- `ffs`: one more than the index of the lowest bit set in an `int`, or 0. -/
def ffs (n : Nat) : Nat :=
  match (List.range 32).find? n.testBit with
  | some i => i + 1
  | none => 0

/-- `MAX_CONNS`, the number of bits of `free_conns`. -/
def maxConns : Nat := 64

/-- `sizeof(echs_iobuf_t)`. -/
def iobufSize : Nat := 4096

/-- The part of `struct echs_conn_s` the pool writes: which of `bufs` the
connection reads into, the buffer's size and the offset. -/
structure Conn where
  buf : Option Nat
  bsz : Nat
  bix : Nat
deriving Repr, DecidableEq

/-- A connection after `memset(c, 0, sizeof(*c))`. -/
def Conn.zero : Conn := ⟨none, 0, 0⟩

/-- `free_conns` and `conns`. -/
structure Conns where
  freeConns : BitVec 64
  conns : Nat → Conn

/-- At the start all bits are set. -/
def Conns.ini : Conns := ⟨BitVec.allOnes 64, fun _ => Conn.zero⟩

/-- `ffs(free_conns & 0xffffffffU) ?: ffs(free_conns >> 32U & 0xffffffffU)`. -/
def Conns.ffsFree (p : Conns) : Nat :=
  let lo := ffs (p.freeConns &&& 0xffffffff#64).toNat
  if lo ≠ 0 then lo else ffs (p.freeConns >>> 32 &&& 0xffffffff#64).toNat

/-- The connection handed out, if any, by its index into `conns`. -/
def makeConn (p : Conns) : Option Nat × Conns :=
  match p.ffsFree with
  | i + 1 =>
      -- toggle bit in free conns
      (some i, ⟨p.freeConns ^^^ 1#64 <<< i, Function.update p.conns i ⟨some i, iobufSize, 0⟩⟩)
  | 0 => (none, p)

/-- Take the connection with index `i` back. -/
def freeConn (p : Conns) (i : Nat) : Conns :=
  if i ≥ maxConns then p
  else ⟨p.freeConns ^^^ 1#64 <<< i, Function.update p.conns i Conn.zero⟩

/-! ### Histories of calls -/

/-- The pool and the connections handed out by it and not given back yet, one
entry for each time. -/
structure PoolState where
  pool : Conns
  used : List Nat

/-- Nothing is in use. -/
def PoolState.ini : PoolState := ⟨Conns.ini, []⟩

inductive PoolCall where
  | make
  | free (c : Nat)
deriving DecidableEq, Repr

/-- A call on the pool; only a connection obtained from it is given back. -/
def poolStep (s : PoolState) : PoolCall → Option PoolState
  | .make => some ⟨(makeConn s.pool).2, (makeConn s.pool).1.toList ++ s.used⟩
  | .free c => if c ∈ s.used then some ⟨freeConn s.pool c, s.used.erase c⟩ else none

/-! ### What a pool is for -/

/-- The free map is the complement of the slots in use. -/
def PoolState.Complement (s : PoolState) : Prop :=
  ∀ i < maxConns, s.pool.freeConns.getLsbD i = true ↔ i ∉ s.used

/-- What a call has to do: it leaves the free map the complement of the slots in
use, hands out only what is not in use, and nothing exactly when all is in use. -/
def PoolSound (s : PoolState) (c : PoolCall) (t : PoolState) : Prop :=
  t.Complement ∧
  (c = .make →
    (∀ i, (makeConn s.pool).1 = some i → i < maxConns ∧ i ∉ s.used) ∧
    ((makeConn s.pool).1 = none ↔ ∀ i < maxConns, i ∈ s.used))

end Echse
