/-
Who owns a task and whom it is run as: the credential functions of `echsd.c`, with the
owner slots of `nummapstr.h`.

The passwd database is the list of its entries.  `getpwuid` and `getpwnam` answer the
first one that fits.
-/
import Mathlib.Tactic

namespace Echse

/-! ### Names or numbers -/

/-- `nummapstr_t`: a number if the top bit is set, else a string, or `NULL`. -/
inductive NumMapStr where
  | null
  | str (s : String)
  | num (n : Nat)
deriving DecidableEq, Repr

/-- `nummapstr_str`. -/
def nummapstrStr : NumMapStr → Option String
  | .str s => some s
  | _ => none

/-- `nummapstr_num`, nothing standing for `NUMMAPSTR_NAN`. -/
def nummapstrNum : NumMapStr → Option Nat
  | .num n => some n
  | _ => none

/-- `nummapstr_bang_num`: the top bit is the mark, so 63 bits are kept. -/
def nummapstrBangNum (n : Nat) : NumMapStr := .num (n % 2 ^ 63)

/-! ### Credentials -/

/-- `NOT_A_UID`. -/
def notAUid : Nat := 4294967295

/-- A value stored in a `uid_t`. -/
def uidT (n : Nat) : Nat := n % 2 ^ 32

/-- `struct passwd`. -/
structure Passwd where
  name : String
  uid : Nat
  gid : Nat
  dir : String
  shell : String
  /-- A `uid_t` has 32 bits. -/
  fits : uid < 2 ^ 32
deriving DecidableEq

abbrev PasswdDb := List Passwd

def getpwuid (pw : PasswdDb) (u : Nat) : Option Passwd := pw.find? (·.uid == u)
def getpwnam (pw : PasswdDb) (s : String) : Option Passwd := pw.find? (·.name == s)

/-- `ncred_t`. -/
structure NCred where
  u : Nat
  g : Nat
  wd : Option String
  sh : Option String
deriving DecidableEq, Repr

/-- `(ncred_t){NOT_A_UID}`. -/
def NCred.none : NCred := ⟨notAUid, 0, .none, .none⟩

/-- `(ncred_t){p->pw_uid, p->pw_gid, p->pw_dir, p->pw_shell}`. -/
def NCred.ofPasswd (p : Passwd) : NCred := ⟨p.uid, p.gid, some p.dir, some p.shell⟩

/-- `compl_uid`. -/
def complUid (pw : PasswdDb) (u : Nat) : NCred :=
  if u = notAUid then NCred.none
  else match getpwuid pw u with
    | some p => NCred.ofPasswd p
    | Option.none => NCred.none

/-- `compl_user`. -/
def complUser (pw : PasswdDb) (u : String) : NCred :=
  match getpwnam pw u with
  | some p => NCred.ofPasswd p
  | none => NCred.none

/-- `compl_owner`. -/
def complOwner (pw : PasswdDb) (o : NumMapStr) : NCred :=
  match nummapstrStr o with
  | some s => complUser pw s
  | none =>
      match nummapstrNum o with
      | some n => complUid pw (uidT n)
      | none => NCred.none

end Echse
