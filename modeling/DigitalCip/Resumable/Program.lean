import Mathlib.Logic.Function.Basic

/-!
# Resumable programs

A sequential program that talks to the outside world is a tree: it has returned,
it has raised an exception, or it waits for the reply to one call.  Between a
call and its reply anything may happen, and the tree is what is left to run, so
a crash or a change of scheduling between any two calls needs no further
encoding.

Nothing here fixes what the calls are; a client chooses the type `C` of calls
and, for each call `c`, the type `Ret c` of its replies.
-/

namespace Resumable

/-- A program over the calls `C`: what is left to run of it. -/
inductive Prog (C : Type) (Ret : C → Type) (ε α : Type) : Type where
  | ret (a : α) : Prog C Ret ε α
  | raise (e : ε) : Prog C Ret ε α
  | call (c : C) (k : Ret c → Prog C Ret ε α) : Prog C Ret ε α

namespace Prog
variable {C : Type} {Ret : C → Type} {ε α β γ : Type}

/-- Sequencing: an exception skips the rest. -/
def bind : Prog C Ret ε α → (α → Prog C Ret ε β) → Prog C Ret ε β
  | .ret a, f => f a
  | .raise e, _ => .raise e
  | .call c k, f => .call c fun r => (k r).bind f

/-- `try … except`: an exception of the first program runs the handler. -/
def tryCatch : Prog C Ret ε α → (ε → Prog C Ret ε α) → Prog C Ret ε α
  | .ret a, _ => .ret a
  | .raise e, h => h e
  | .call c k, h => .call c fun r => (k r).tryCatch h

/-- One call, returning its reply. -/
def perform (c : C) : Prog C Ret ε (Ret c) := .call c .ret

instance : Monad (Prog C Ret ε) where
  pure := .ret
  bind := bind

instance : MonadExceptOf ε (Prog C Ret ε) where
  throw := .raise
  tryCatch := tryCatch

@[simp] theorem ret_bind (a : α) (f : α → Prog C Ret ε β) : (.ret a : Prog C Ret ε α) >>= f = f a :=
  rfl

@[simp] theorem raise_bind (e : ε) (f : α → Prog C Ret ε β) :
    (.raise e : Prog C Ret ε α) >>= f = .raise e := rfl

@[simp] theorem call_bind (c : C) (k : Ret c → Prog C Ret ε α) (f : α → Prog C Ret ε β) :
    (.call c k : Prog C Ret ε α) >>= f = .call c fun r => k r >>= f := rfl

theorem perform_bind (c : C) (f : Ret c → Prog C Ret ε β) :
    (perform c : Prog C Ret ε (Ret c)) >>= f = .call c f := rfl

/-- The call a program waits on, if it is still running. -/
def pending : Prog C Ret ε α → Option C
  | .call c _ => some c
  | _ => none

@[simp] theorem pending_call (c : C) (k : Ret c → Prog C Ret ε α) :
    (Prog.call c k).pending = some c := rfl

end Prog
end Resumable
