import X86.Transaction

/-!
# What an instruction asks for

An instruction first reads everything that it depends on, and only then writes. The first part is
a tree of questions: each node asks for the value of an operand or for the carry flag, and goes on
with the answer. One interpreter answers the questions from a transaction, another one lists the
values that had to stand in for an undefined carry flag.

* `Fetch`, with the monad structure that joins questions;
* `Fetch.run`: the result of the questions, or the first cause for which one has no answer;
* `Fetch.assumed`: the values that stood in for undefined carry flags on the way.

Main statement: `run_bind`, which says that joined questions are answered one after the other.
-/

namespace X86

/-- Questions that end with a result or with a failure. -/
inductive Fetch (α : Type) where
  | done (a : α)
  | fail (c : Cause)
  /-- asks for an operand that fits a word -/
  | word (op : Operand) (next : Word → Fetch α)
  | lanes (op : Operand) (next : Lanes → Fetch α)
  | carry (next : Bool → Fetch α)

namespace Fetch

variable {α β : Type}

/-- Goes on with more questions after a result. -/
def bind (x : Fetch α) (f : α → Fetch β) : Fetch β :=
  match x with
  | done a => f a
  | fail c => fail c
  | word op next => word op fun v => (next v).bind f
  | lanes op next => lanes op fun v => (next v).bind f
  | carry next => carry fun b => (next b).bind f

instance : Monad Fetch where
  pure := done
  bind := bind

/-- A result or a failure that needs no question. -/
def ofExcept : Except Cause α → Fetch α
  | .ok a => done a
  | .error c => fail c

/-- Answers the questions from a transaction. -/
def run (t : Transaction) : Fetch α → Except Cause α
  | done a => .ok a
  | fail c => .error c
  | word op next => do (next (← t.read op)).run t
  | lanes op next => do (next (← t.readLanes op)).run t
  | carry next => do (next (← t.carryIn)).run t

/-- The values that stand in for undefined carry flags while the questions are answered. -/
def assumed (t : Transaction) : Fetch α → List Bool
  | done _ | fail _ => []
  | word op next =>
    match t.read op with
    | .ok v => (next v).assumed t
    | .error _ => []
  | lanes op next =>
    match t.readLanes op with
    | .ok v => (next v).assumed t
    | .error _ => []
  | carry next =>
    match t.carryIn with
    | .ok b => (if t.flag .cf = .undefined then [b] else []) ++ (next b).assumed t
    | .error _ => []

@[simp] theorem run_pure (t : Transaction) (a : α) : (pure a : Fetch α).run t = .ok a :=
  rfl

@[simp] theorem run_ofExcept (t : Transaction) (x : Except Cause α) : (ofExcept x).run t = x := by
  cases x <;> rfl

/-- Joined questions are answered one after the other. -/
@[simp] theorem run_bind (t : Transaction) (x : Fetch α) (f : α → Fetch β) :
    (x >>= f).run t = x.run t >>= fun a => (f a).run t := by
  show (x.bind f).run t = _
  induction x with
  | done a => rfl
  | fail c => rfl
  | word op next ih =>
    simp only [bind, run]
    cases t.read op with
    | ok v => exact ih v
    | error c => rfl
  | lanes op next ih =>
    simp only [bind, run]
    cases t.readLanes op with
    | ok v => exact ih v
    | error c => rfl
  | carry next ih =>
    simp only [bind, run]
    cases t.carryIn with
    | ok b => exact ih b
    | error c => rfl

end Fetch

end X86
