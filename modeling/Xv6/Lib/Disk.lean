import Mathlib.Logic.Function.Basic
import Mathlib.Data.List.Basic

/-!
# Programs of atomic block writes, and what a crash leaves of them

A disk maps addresses to blocks. A program is a list of operations, each of which replaces one
block atomically, with a value it may compute from the disk at that moment:

* `write a v`: store `v` at `a`;
* `copy src dst`: read `src` and store it at `dst`;
* `modify a f`: read `a`, change it with `f`, and store it back.

A crash during a program leaves the effect of one of its prefixes, `exec d (ops.take k)`.
The lemmas here say how execution composes and which blocks a program leaves alone.
-/

namespace Disk

variable {α β : Type*}

/-- One atomic block write. -/
inductive Op (α β : Type*) where
  | write (a : α) (v : β)
  | copy (src dst : α)
  | modify (a : α) (f : β → β)

/-- The block an operation replaces. -/
def Op.target : Op α β → α
  | .write a _ => a
  | .copy _ dst => dst
  | .modify a _ => a

variable [DecidableEq α]

/-- The disk after one operation. -/
def Op.exec (d : α → β) : Op α β → α → β
  | .write a v => Function.update d a v
  | .copy src dst => Function.update d dst (d src)
  | .modify a f => Function.update d a (f (d a))

/-- The disk after a program. -/
def exec (d : α → β) (ops : List (Op α β)) : α → β := ops.foldl Op.exec d

@[simp] theorem exec_nil (d : α → β) : exec d [] = d := rfl

@[simp] theorem exec_cons (d : α → β) (o : Op α β) (ops : List (Op α β)) :
    exec d (o :: ops) = exec (o.exec d) ops := rfl

theorem exec_append (d : α → β) (ops ops' : List (Op α β)) :
    exec d (ops ++ ops') = exec (exec d ops) ops' :=
  List.foldl_append

/-- An operation leaves every block but its target alone. -/
theorem Op.exec_of_ne {o : Op α β} {x : α} (d : α → β) (h : o.target ≠ x) :
    o.exec d x = d x := by
  cases o with
  | write a v => exact Function.update_of_ne (Ne.symm h) _ _
  | copy src dst => exact Function.update_of_ne (Ne.symm h) _ _
  | modify a f => exact Function.update_of_ne (Ne.symm h) _ _

/-- **Frame rule.** A program leaves every block that none of its operations targets alone. -/
theorem exec_of_forall_ne {x : α} :
    ∀ {ops : List (Op α β)} (d : α → β), (∀ o ∈ ops, o.target ≠ x) → exec d ops x = d x
  | [], _, _ => rfl
  | o :: ops, d, h => by
    rw [exec_cons, exec_of_forall_ne _ fun o' ho' => h o' (List.mem_cons_of_mem _ ho'),
      Op.exec_of_ne d (h o List.mem_cons_self)]

/-- A crash during `ops ++ ops'` leaves a crash of `ops`, or all of `ops` and a crash of
`ops'`. -/
theorem exec_take_append (d : α → β) (ops ops' : List (Op α β)) (k : ℕ) :
    exec d ((ops ++ ops').take k) = exec (exec d (ops.take k)) (ops'.take (k - ops.length)) := by
  rw [List.take_append, exec_append]

end Disk
