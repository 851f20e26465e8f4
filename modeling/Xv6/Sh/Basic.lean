import Mathlib.Data.List.Basic
import Xv6.Param

namespace Xv6.Sh

inductive Mode where
  | rdonly
  | wronlyCreate
  deriving DecidableEq, Repr

-- `W` is what stands for a word. The shell redirects descriptors 0 and 1 only.
inductive Cmd (W : Type) where
  | exec (argv : List W)
  | redir (cmd : Cmd W) (file : W) (mode : Mode) (fd : Fin 2)
  | pipe (left right : Cmd W)
  | list (left right : Cmd W)
  | back (cmd : Cmd W)
  deriving DecidableEq, Repr

end Xv6.Sh
