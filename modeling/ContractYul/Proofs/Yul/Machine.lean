import ContractYul.Yul.Basic

/-!
# The machine that runs target code

Words of 256 bits, what code can read and change, and the effect of every instruction that target
code is made of. An instruction either reads: it makes one word of its arguments and of what it
finds, and changes nothing. Or it acts: it can change the world, end the call, or hand control to
other contracts, of which nothing is known.
-/

namespace ContractYul.Yul

abbrev Word := BitVec 256

namespace Word

def ofBool (b : Bool) : Word :=
  if b then 1#256 else 0#256

def ofBytes (bytes : List UInt8) : Word :=
  BitVec.ofNat 256 (bytes.foldl (fun n b => n * 256 + b.toNat) 0)

def toBytes (w : Word) : List UInt8 :=
  (List.range 32).map fun i => UInt8.ofNat (BitVec.ushiftRight w (8 * (31 - i))).toNat

def rem (a b : Word) : Word :=
  if b = 0#256 then 0#256 else a.umod b

/-- Remainder with the sign of the dividend, zero for a divisor of zero. -/
def srem (a b : Word) : Word :=
  if b = 0#256 then 0#256 else BitVec.srem a b

def exp (a b : Word) : Word :=
  BitVec.ofNat 256 (a.toNat.pow b.toNat)

/-- The byte of an index from the high end, zero beyond the word. -/
def byte (i x : Word) : Word :=
  if i.toNat < 32 then (BitVec.ushiftRight x (8 * (31 - i.toNat))).and 0xff#256 else 0#256

def shl (bits x : Word) : Word :=
  x.shiftLeft bits.toNat

def shr (bits x : Word) : Word :=
  x.ushiftRight bits.toNat

def sar (bits x : Word) : Word :=
  x.sshiftRight bits.toNat

/-- The low bytes of a word, up to the one of an index, with the sign of that byte. -/
def signExtend (i x : Word) : Word :=
  if i.toNat < 31 then (x.setWidth (8 * (i.toNat + 1))).signExtend 256 else x

end Word

/-! ## Bytes -/

def slice (bytes : List UInt8) (start length : Nat) : List UInt8 :=
  (List.range length).map fun i => bytes.getD (start + i) 0

abbrev Memory := Nat → UInt8

namespace Memory

def read (m : Memory) (start length : Nat) : List UInt8 :=
  (List.range length).map fun i => m (start + i)

def write (m : Memory) (start : Nat) (bytes : List UInt8) : Memory := fun address =>
  if start ≤ address then bytes.getD (address - start) (m address) else m address

def readWord (m : Memory) (address : Word) : Word :=
  .ofBytes (m.read address.toNat 32)

end Memory

/-! ## What code reads and changes -/

structure World where
  storage : Word → Word
  /-- Storage that is empty again after the transaction. -/
  transient : Word → Word
  memory : Memory
  /-- What the last call of another contract handed back. -/
  returnData : List UInt8
  /-- Topics and data of the logs, the oldest first. -/
  logs : List (List Word × List UInt8)
  balance : Word → Word
  /-- Code of the accounts. -/
  code : Word → List UInt8
  /-- Number of times that the remaining gas was read. -/
  gasReads : Nat
  deriving Inhabited

def World.slots (w : World) (transient : Bool) : Word → Word :=
  if transient then w.transient else w.storage

def World.setSlot (w : World) (transient : Bool) (slot v : Word) : World :=
  if transient then { w with transient := fun k => if k = slot then v else w.transient k }
  else { w with storage := fun k => if k = slot then v else w.storage k }

structure Context where
  address : Word
  caller : Word
  callValue : Word
  callData : List UInt8
  origin : Word
  gasPrice : Word
  timestamp : Word
  number : Word
  chainId : Word
  coinbase : Word
  prevRandao : Word
  baseFee : Word
  gasLimit : Word
  blockHash : Word → Word
  keccak : List UInt8 → Word
  /-- The code that runs. -/
  code : List UInt8
  /-- The word of a text literal, which names a part of the code. -/
  text : String → Word
  dataOffset : Word → Word
  dataSize : Word → Word
  /-- The remaining gas at each reading. -/
  gas : Nat → Word
  /-- What a call of another contract, or a creation, answers and does. -/
  external : String → List Word → World → Word × World
  deriving Inhabited

/-! ## Ends of a run -/

inductive Halt where
  | stop
  | return (data : List UInt8)
  | revert (data : List UInt8)
  | invalid
  deriving DecidableEq

/-- Why a piece of code does not come to its own end. -/
inductive Stop where
  /-- The call ended, in a world that a revert throws away. -/
  | halted (how : Halt) (world : World)
  /-- A name, a literal or a number of values has no meaning. -/
  | stuck
  /-- The run was not allowed so many nested calls or rounds of a loop. -/
  | exhausted

abbrev Run := Except Stop

/-! ## Instructions that read -/

abbrev Reading := List Word → Option Word

namespace Reading

def const (v : Word) : Reading
  | [] => some v
  | _ => none

def unary (f : Word → Word) : Reading
  | [a] => some (f a)
  | _ => none

def binary (f : Word → Word → Word) : Reading
  | [a, b] => some (f a b)
  | _ => none

end Reading

def computations : List (String × Reading) :=
  [("add", .binary BitVec.add),
   ("sub", .binary BitVec.sub),
   ("mul", .binary BitVec.mul),
   ("div", .binary BitVec.udiv),
   ("sdiv", .binary BitVec.sdiv),
   ("mod", .binary Word.rem),
   ("smod", .binary Word.srem),
   ("exp", .binary Word.exp),
   ("not", .unary BitVec.not),
   ("lt", .binary fun a b => .ofBool (a.ult b)),
   ("gt", .binary fun a b => .ofBool (b.ult a)),
   ("slt", .binary fun a b => .ofBool (a.slt b)),
   ("sgt", .binary fun a b => .ofBool (b.slt a)),
   ("eq", .binary fun a b => .ofBool (a == b)),
   ("iszero", .unary fun a => .ofBool (a == 0#256)),
   ("and", .binary BitVec.and),
   ("or", .binary BitVec.or),
   ("xor", .binary BitVec.xor),
   ("byte", .binary Word.byte),
   ("shl", .binary Word.shl),
   ("shr", .binary Word.shr),
   ("sar", .binary Word.sar),
   ("signextend", .binary Word.signExtend)]

def Context.properties (ctx : Context) : List (String × Reading) :=
  [("caller", .const ctx.caller),
   ("callvalue", .const ctx.callValue),
   ("calldataload", .unary fun a => .ofBytes (slice ctx.callData a.toNat 32)),
   ("calldatasize", .const (.ofNat 256 ctx.callData.length)),
   ("address", .const ctx.address),
   ("origin", .const ctx.origin),
   ("timestamp", .const ctx.timestamp),
   ("number", .const ctx.number),
   ("chainid", .const ctx.chainId),
   ("gasprice", .const ctx.gasPrice),
   ("coinbase", .const ctx.coinbase),
   ("prevrandao", .const ctx.prevRandao),
   ("basefee", .const ctx.baseFee),
   ("gaslimit", .const ctx.gasLimit),
   ("blockhash", .unary ctx.blockHash),
   ("codesize", .const (.ofNat 256 ctx.code.length)),
   ("dataoffset", .unary ctx.dataOffset),
   ("datasize", .unary ctx.dataSize)]

def Context.observations (ctx : Context) : List (String × (World → Reading)) :=
  [("mload", fun w => .unary w.memory.readWord),
   ("sload", fun w => .unary w.storage),
   ("tload", fun w => .unary w.transient),
   ("selfbalance", fun w => .const (w.balance ctx.address)),
   ("balance", fun w => .unary w.balance),
   ("extcodesize", fun w => .unary fun a => .ofNat 256 (w.code a).length),
   ("extcodehash", fun w => .unary fun a => ctx.keccak (w.code a)),
   ("keccak256", fun w => .binary fun start length =>
     ctx.keccak (w.memory.read start.toNat length.toNat)),
   ("returndatasize", fun w => .const (.ofNat 256 w.returnData.length))]

def Context.readings (ctx : Context) : List (String × (World → Reading)) :=
  (computations ++ ctx.properties).map (fun entry => (entry.1, fun _ => entry.2)) ++
    ctx.observations

/-! ## Instructions that act -/

abbrev Action := List Word → World → Run (List Word × World)

def World.pass (w : World) : Run (List Word × World) :=
  .ok ([], w)

def Action.copy (source : World → List UInt8) : Action
  | [target, start, length], w =>
    World.pass { w with
      memory := w.memory.write target.toNat (slice (source w) start.toNat length.toNat) }
  | _, _ => .error .stuck

def Action.log (topics : Nat) : Action
  | start :: length :: rest, w =>
    if rest.length = topics then
      World.pass { w with
        logs := w.logs ++ [(rest, w.memory.read start.toNat length.toNat)] }
    else .error .stuck
  | _, _ => .error .stuck

def Action.halt (how : List UInt8 → Halt) : Action
  | [start, length], w => .error (.halted (how (w.memory.read start.toNat length.toNat)) w)
  | _, _ => .error .stuck

def Action.haltEmpty (how : Halt) : Action
  | [], w => .error (.halted how w)
  | _, _ => .error .stuck

def Action.external (ctx : Context) (name : String) (arity : Nat) : Action
  | args, w =>
    if args.length = arity then
      let (answer, w) := ctx.external name args w
      .ok ([answer], w)
    else .error .stuck

def Action.put (write : World → Word → Word → World) : Action
  | [place, v], w => World.pass (write w place v)
  | _, _ => .error .stuck

/-- Copies bytes that the last call handed back; it is an error to read beyond them. -/
def Action.copyReturned : Action
  | [target, start, length], w =>
    if start.toNat + length.toNat ≤ w.returnData.length then
      Action.copy (·.returnData) [target, start, length] w
    else .error (.halted .invalid w)
  | _, _ => .error .stuck

def Action.copyWithin : Action
  | [target, start, length], w =>
    World.pass { w with
      memory := w.memory.write target.toNat (w.memory.read start.toNat length.toNat) }
  | _, _ => .error .stuck

def Action.gas (ctx : Context) : Action
  | [], w => .ok ([ctx.gas w.gasReads], { w with gasReads := w.gasReads + 1 })
  | _, _ => .error .stuck

def Action.pop : Action
  | [_], w => World.pass w
  | _, _ => .error .stuck

def Context.actions (ctx : Context) : List (String × Action) :=
  [("sstore", .put fun w slot v => w.setSlot false slot v),
   ("tstore", .put fun w slot v => w.setSlot true slot v),
   ("mstore", .put fun w a v => { w with memory := w.memory.write a.toNat v.toBytes }),
   ("mstore8", .put fun w a v =>
     { w with memory := w.memory.write a.toNat [UInt8.ofNat v.toNat] }),
   ("pop", .pop),
   ("gas", .gas ctx),
   ("calldatacopy", .copy fun _ => ctx.callData),
   ("codecopy", .copy fun _ => ctx.code),
   ("datacopy", .copy fun _ => ctx.code),
   ("returndatacopy", .copyReturned),
   ("mcopy", .copyWithin),
   ("log0", .log 0),
   ("log1", .log 1),
   ("log2", .log 2),
   ("log3", .log 3),
   ("log4", .log 4),
   ("call", .external ctx "call" 7),
   ("staticcall", .external ctx "staticcall" 6),
   ("delegatecall", .external ctx "delegatecall" 6),
   ("create", .external ctx "create" 3),
   ("create2", .external ctx "create2" 4),
   ("stop", .haltEmpty .stop),
   ("invalid", .haltEmpty .invalid),
   ("return", .halt .return),
   ("revert", .halt .revert)]

/-! ## All instructions -/

def Action.ofReading (reading : World → Reading) : Action := fun args w =>
  match reading w args with
  | some v => .ok ([v], w)
  | none => .error .stuck

def Context.instructions (ctx : Context) : List (String × Action) :=
  ctx.readings.map (fun entry => (entry.1, .ofReading entry.2)) ++ ctx.actions

def Context.instruction? (ctx : Context) (name : String) : Option Action :=
  ctx.instructions.lookup name

def readingNames : List String :=
  computations.map (·.1) ++
    ["caller", "callvalue", "calldataload", "calldatasize", "address", "origin", "timestamp",
     "number", "chainid", "gasprice", "coinbase", "prevrandao", "basefee", "gaslimit",
     "blockhash", "codesize", "dataoffset", "datasize", "mload", "sload", "tload",
     "selfbalance", "balance", "extcodesize", "extcodehash", "keccak256", "returndatasize"]

theorem Context.map_fst_readings (ctx : Context) :
    ctx.readings.map (·.1) = readingNames := rfl

end ContractYul.Yul
