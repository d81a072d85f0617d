import CgsKlee.Core.Fork
import CgsKlee.Core.AddressSpace

/-!
# Memory operations

`Executor::executeMemoryOperation` first looks for one object that holds the whole access.  If there is none it
resolves the pointer and forks for each object it may point into, with one state less to serve each time; what is left
is an error.  Object states are values here, so that a write in one state is not seen by the others; the caches that
a read flushes are those of the reading state.
-/

namespace CgsKlee

open Symbolic FlatMemory

variable {T : ExprTheory} {A : ArrayTheory T}

/-- The memory of a state and the registers of its stack frame. -/
structure MemoryData (A : ArrayTheory T) where
  addressSpace : AddressSpace (ObjectState A)
  locals : Nat → Option T.Expr

abbrev MemoryState (A : ArrayTheory T) := SymState T (MemoryData A)

inductive MemoryAccess (T : ExprTheory)
  | load (target type : Nat)
  | store (value : T.Expr)

def MemoryAccess.type : MemoryAccess T → Nat
  | .load _ type => type
  | .store value => T.width value

/-- The kinds of termination that a memory operation can cause. -/
inductive StateTerminationType
  | maxDepth
  | solver
  | readOnly
  | ptr
deriving DecidableEq, Repr

/-- What `terminateState` reports. -/
structure Termination where
  message : String
  type : StateTerminationType
deriving DecidableEq, Repr

namespace Termination

def maxDepth : Termination := ⟨"max-depth exceeded.", .maxDepth⟩

def timedOut : Termination := ⟨"Query timed out (resolve).", .solver⟩

def readOnly : Termination := ⟨"memory error: object read only", .readOnly⟩

def outOfBound : Termination := ⟨"memory error: out of bound pointer", .ptr⟩

end Termination

/-- The options that memory operations depend on, but for those of the forks.  `MakeConcreteSymbolic` is the fresh
read that is to replace a constant, where the option is set and the random choice is to replace. -/
structure MemoryOptions (T : ExprTheory) where
  simplifySymIndices : Bool := false
  makeConcreteSymbolic : Option T.Expr := none

def replaceReadWithSymbolic (B : Backend T) (fresh : Option T.Expr) (state : MemoryState A) (e : T.Expr) :
    MemoryState A × T.Expr :=
  match fresh, T.constant? e with
  | some res, some _ => ({ state with constraints := B.addConstraint state.constraints (T.eq e res) }, res)
  | _, _ => (state, e)

def MemoryData.writeObject (d : MemoryData A) (mo : MemoryObject) (os : ObjectState A) : MemoryData A :=
  { d with addressSpace := d.addressSpace.replace (mo, os) }

def MemoryData.bindLocal (d : MemoryData A) (target : Nat) (value : T.Expr) : MemoryData A :=
  { d with locals := Function.update d.locals target (some value) }

/-- The access to an object in a state where it is in bounds; a state that is not terminated has no report. -/
def accessObject (ctx : Context) (B : Backend T) (fresh : Option T.Expr) (state : MemoryState A)
    (op : MemoryObject × ObjectState A) (address : T.Expr) :
    MemoryAccess T → Option (MemoryState A × Option Termination)
  | .store value =>
    if op.2.readOnly then some (state, some .readOnly)
    else do
      let wos ← op.2.write ctx (op.1.getOffsetExpr ctx address) value
      some ({ state with data := state.data.writeObject op.1 wos }, none)
  | .load target type => do
    let (result, os) ← op.2.read ctx (op.1.getOffsetExpr ctx address) type
    let (state, result) := replaceReadWithSymbolic B fresh state result
    some ({ state with data := (state.data.writeObject op.1 os).bindLocal target result }, none)

/-- The access in the state that the fork leaves for an object; there may be none. -/
def accessBound (ctx : Context) (B : Backend T) (op : MemoryObject × ObjectState A) (address : T.Expr)
    (access : MemoryAccess T) : Option (MemoryState A) → Option (List (MemoryState A × Option Termination))
  | none => some []
  | some bound => (accessObject ctx B none bound op address access).map ([·])

/-- The loop over the resolution list, from the object number `i` on.  `unbound` is the state that no object has
served yet, and `env` and `coin` are what the forks see. -/
def forkResolutions (ctx : Context) (B : Backend T) (env : Nat → ForkEnv) (coin : Nat → Bool) (address : T.Expr)
    (access : MemoryAccess T) (incomplete : Bool) :
    List (MemoryObject × ObjectState A) → Nat → MemoryState A → Option (List (MemoryState A × Option Termination))
  | [], _, unbound => some [(unbound, some (if incomplete then .timedOut else .outOfBound))]
  | op :: rl, i, unbound => do
    let inBounds := op.1.getBoundsCheckPointerBytes ctx address (bytesForWidth access.type)
    let branches ← fork B (env i) (coin i) unbound inBounds
    let terminated := branches.terminated.map fun s => (s, some Termination.maxDepth)
    let bound ← accessBound ctx B op address access branches.trueState
    match branches.falseState with
    | none => some (terminated ++ bound)
    | some unbound => do
      let rest ← forkResolutions ctx B env coin address access incomplete rl (i + 1) unbound
      some (terminated ++ bound ++ rest)

/-- `Executor::executeMemoryOperation` after the simplification of the operands: the states it leaves, those it
terminated with the report. -/
def resolveAndAccess (ctx : Context) (B : Backend T) (opts : MemoryOptions T) (env : Nat → ForkEnv)
    (coin : Nat → Bool) (state : MemoryState A) (access : MemoryAccess T) (address : T.Expr) :
    Option (List (MemoryState A × Option Termination)) :=
  -- the error path: no resolution, multiple resolutions, or one with out of bounds
  let slowPath :=
    let (incomplete, rl) := state.data.addressSpace.resolve ctx B state.constraints address 0
    forkResolutions ctx B env coin address access incomplete rl 0 state
  match state.data.addressSpace.resolveOne ctx B state.constraints address with
  | some op =>
    let check := op.1.getBoundsCheckOffsetBytes ctx (op.1.getOffsetExpr ctx address) (bytesForWidth access.type)
    if B.mustBeTrue state.constraints check then
      (accessObject ctx B opts.makeConcreteSymbolic state op address access).map ([·])
    else slowPath
  | none => slowPath

def simplifySymbolic (B : Backend T) (opts : MemoryOptions T) (constraints : List T.Expr) (e : T.Expr) : T.Expr :=
  if opts.simplifySymIndices ∧ T.constant? e = none then B.simplifyExpr constraints e else e

def MemoryAccess.simplify (B : Backend T) (opts : MemoryOptions T) (constraints : List T.Expr) :
    MemoryAccess T → MemoryAccess T
  | .load target type => .load target type
  | .store value => .store (simplifySymbolic B opts constraints value)

def executeMemoryOperation (ctx : Context) (B : Backend T) (opts : MemoryOptions T) (env : Nat → ForkEnv)
    (coin : Nat → Bool) (state : MemoryState A) (access : MemoryAccess T) (address : T.Expr) :
    Option (List (MemoryState A × Option Termination)) :=
  resolveAndAccess ctx B opts env coin state (access.simplify B opts state.constraints)
    (simplifySymbolic B opts state.constraints address)

end CgsKlee
