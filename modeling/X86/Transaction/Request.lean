import X86.Transaction

/-!
# Requests to a transaction

Everything that can be asked of a transaction, as data. A request is either answered or refused,
and a refused request leaves the transaction as it was.

* `Request`, `Reply`;
* `Transaction.respond`: the reply to a request and the transaction after it;
* `Transaction.after`: the transaction after a list of requests.
-/

namespace X86

inductive Request where
  | read (op : Operand)
  | readLanes (op : Operand)
  | readReg (r : Reg)
  | flag (n : FlagName)
  | carryIn
  | write (op : Operand) (v : Word)
  | writeLanes (op : Operand) (v : Lanes)
  | writeReg (r : Reg) (v : Word)
  | setFlag (n : FlagName) (v : Flag)
  | barrier (b : Barrier)
  | setFlags (u : FlagUpdate)
  deriving DecidableEq

inductive Reply where
  | word (v : Word)
  | lanes (v : Lanes)
  | flag (v : Flag)
  | bool (b : Bool)
  | done
  deriving DecidableEq

namespace Transaction

/-- The reply to a request and the transaction after it, or the cause for which it is refused. -/
def attempt (t : Transaction) : Request → Except Cause (Reply × Transaction)
  | .read op => do return (.word (← t.read op), t)
  | .readLanes op => do return (.lanes (← t.readLanes op), t)
  | .readReg r => .ok (.word (t.readReg r), t)
  | .flag n => .ok (.flag (t.flag n), t)
  | .carryIn => do return (.bool (← t.carryIn), t)
  | .write op v => do return (.done, ← t.write op v)
  | .writeLanes op v => do return (.done, ← t.writeLanes op v)
  | .writeReg r v => .ok (.done, t.writeReg r (.ofWord v))
  | .setFlag n v => .ok (.done, t.setFlag n v)
  | .barrier b => .ok (.done, t.barrier b)
  | .setFlags u => .ok (.done, t.setFlags u)

/-- The reply to a request, or its error, and the transaction after it. -/
def respond (t : Transaction) (q : Request) : Except Error Reply × Transaction :=
  match t.attempt q with
  | .ok (a, t') => (.ok a, t')
  | .error c => (.error (t.error c), t)

/-- The transaction after a list of requests, of which some may be refused. -/
def after (t : Transaction) (qs : List Request) : Transaction :=
  qs.foldl (fun t q => (t.respond q).2) t

end Transaction

end X86
