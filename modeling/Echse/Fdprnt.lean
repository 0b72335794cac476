/-
Buffered output: `fdprnt.h`.

There is one buffer, and what is in it goes to the descriptor that has been banged last.  A
`write` takes all it is given.  Formatting is the C library's: from a format and the arguments
that are left it makes a text, and leaves the arguments that it has not used.
-/
import Mathlib.Logic.Function.Basic

namespace Echse

/-- `fd_aux`, the buffer up to `bi`, and what every descriptor has been sent. -/
structure FdAux where
  buf : List Char
  fd : Int
  out : Int → List Char

/-- At the start. -/
def FdAux.init : FdAux := ⟨[], 0, fun _ => []⟩

/-- `sizeof(fd_aux.buf)`. -/
def fdBufz : Nat := 4096

/-- `fdflush`. -/
def fdflush (st : FdAux) : FdAux :=
  { st with buf := [], out := Function.update st.out st.fd (st.out st.fd ++ st.buf) }

/-- `fdputc`. -/
def fdputc (st : FdAux) (c : Char) : FdAux :=
  let st := if fdBufz ≤ st.buf.length then fdflush st else st
  { st with buf := st.buf ++ [c] }

/-- What `vsnprintf` writes of a text, with room for `n` bytes, over as many bytes as the text
has. -/
def snText (n : Nat) (s : List Char) : List Char :=
  if s.length < n then s else s.take (n - 1) ++ ['\x00']

section

variable {φ α : Type} (vsnprintf : φ → List α → Option (List Char × List α))

/-- `fdprintf`; nothing where there are too few arguments.  The second try is with the
arguments that the first one has left. -/
def fdprintf (st : FdAux) (fmt : φ) (vap : List α) : Option FdAux :=
  match vsnprintf fmt vap with
  | none => none
  | some (s, vap) =>
      if fdBufz ≤ s.length + st.buf.length then
        -- yay, finally some write()ing
        let st := fdflush st
        -- ... try the formatting again
        match vsnprintf fmt vap with
        | none => none
        | some (s, _) =>
            if fdBufz < s.length + st.buf.length then some st
            else some { st with buf := st.buf ++ snText (fdBufz - st.buf.length) s }
      else some { st with buf := st.buf ++ snText (fdBufz - st.buf.length) s }

/-- `fdwrite`. -/
def fdwrite (st : FdAux) (str : List Char) : FdAux :=
  -- that's never going to work
  if fdBufz < str.length then st
  else
    let st := if fdBufz ≤ st.buf.length + str.length then fdflush st else st
    { st with buf := st.buf ++ str }

/-- `fdbang`. -/
def fdbang (st : FdAux) (fd : Int) : FdAux :=
  -- flush what we've got to the old fd
  let st := if st.buf ≠ [] ∧ st.fd ≠ fd then fdflush st else st
  { st with fd := fd }

/-- A call. -/
inductive FdCall (φ α : Type) where
  | bang (fd : Int)
  | write (str : List Char)
  | putc (c : Char)
  | printf (fmt : φ) (vap : List α)
  | flush

def fdCall (st : FdAux) : FdCall φ α → Option FdAux
  | .bang fd => some (fdbang st fd)
  | .write str => some (fdwrite st str)
  | .putc c => some (fdputc st c)
  | .printf fmt vap => fdprintf vsnprintf st fmt vap
  | .flush => some (fdflush st)

/-- One call after another. -/
def fdCalls (calls : List (FdCall φ α)) : Option FdAux := calls.foldlM (fdCall vsnprintf) .init

end

end Echse
