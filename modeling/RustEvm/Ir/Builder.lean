import RustEvm.Ir.Func
import RustEvm.Isa.Table

/-!
# RustEvm.Ir.Builder — building a function by hand

`FunctionBuilder` is the builder's state and every method is a function on it.  A method gives `none` where the source
panics: an index out of an arena's range.  Errors are sticky, as in the assembler: the first one is recorded, later
calls change nothing, and `finish` returns it.

Every emitting method is `emit` of what its call asks for; `InsCall.run` is one such call and `FunctionBuilder.step`
one call of the whole interface.
-/

namespace RustEvm.Ir

open Isa Codegen

inductive IrError
  | noCurrentBlock
  | alreadyTerminated (block : Block)
  | unknownMnemonic (mnemonic : String)
  | reservedOpcode (mnemonic reason : String)
  | signatureMismatch (func : Func) (name : String)
  | alreadyDefined (func : Func) (name : String)
  | undefined (func : Func) (name : String)
  | noEntry
  deriving DecidableEq, Repr

/-- Builds one function. -/
structure FunctionBuilder where
  func : Function
  current : Option Block
  last : Option Inst
  error : Option IrError
  deriving DecidableEq

/-- Placeholder results for an instruction that was not emitted. -/
def placeholder (count : ℕ) : List Value := List.replicate count (Value.new 0)

namespace FunctionBuilder

/-- Start a function and switch to its entry block. -/
def new (name : String) (sig : Signature) : FunctionBuilder :=
  let func := Function.new name sig
  { func, current := some func.entry, last := none, error := none }

/-- Record the first error; a later one is dropped. -/
def fail (b : FunctionBuilder) (e : IrError) : FunctionBuilder := { b with error := some (b.error.getD e) }

/-- Append an instruction, or record the first reason it could not be. -/
def emit (b : FunctionBuilder) (op : Op) (ty : Ty) (repair : Repair) (args : List Value) (resultTypes : List Ty) :
    Option (FunctionBuilder × List Value) :=
  if b.error.isSome then some (b, placeholder resultTypes.length)
  else match b.current with
  | none => some (b.fail .noCurrentBlock, placeholder resultTypes.length)
  | some block =>
    match b.func.blocks[block.index]? with
    | none => none
    | some data =>
      if data.term.isSome then some (b.fail (.alreadyTerminated block), placeholder resultTypes.length)
      else
        let (func, inst) := b.func.appendInst block { op, ty, repair, args, results := [], note := none } resultTypes
        some ({ b with func, last := some inst }, func.results inst)

def terminate (b : FunctionBuilder) (term : Terminator) : Option FunctionBuilder :=
  if b.error.isSome then some b
  else match b.current with
  | none => some (b.fail .noCurrentBlock)
  | some block =>
    match b.func.blocks[block.index]? with
    | none => none
    | some data =>
      if data.term.isSome then some (b.fail (.alreadyTerminated block))
      else some { b with func := b.func.setTerminator block term, current := none, last := none }

/-! ## Blocks, parameters, notes -/

def blockParam (b : FunctionBuilder) (block : Block) (n : ℕ) : Option Value := do
  let data ← b.func.blocks[block.index]?
  data.params[n]?

def param (b : FunctionBuilder) (n : ℕ) : Option Value := b.blockParam b.func.entry n

def createBlock (b : FunctionBuilder) : FunctionBuilder × Block :=
  let (func, block) := b.func.createBlock
  ({ b with func }, block)

/-- A block taking `params`. -/
def createBlockWith (b : FunctionBuilder) (params : List Ty) : FunctionBuilder × Block :=
  let (func, block) := b.func.createBlock
  ({ b with func := params.foldl (fun f ty => (f.appendParam block ty).1) func }, block)

def setBlockKind (b : FunctionBuilder) (block : Block) (kind : BlockKind) : Option FunctionBuilder :=
  if block.index < b.func.blocks.length then some { b with func := b.func.setBlockKind block kind } else none

/-- Direct subsequent instructions into `block`. -/
def switchTo (b : FunctionBuilder) (block : Block) : FunctionBuilder := { b with current := some block, last := none }

/-- Attach a comment to the instruction just emitted. -/
def note (b : FunctionBuilder) (text : String) : FunctionBuilder :=
  match b.last with
  | none => b
  | some inst => { b with func := b.func.setNote inst text }

/-- The only way to obtain a function. -/
def finish (b : FunctionBuilder) : Except IrError Function :=
  match b.error with
  | some e => .error e
  | none => .ok b.func

end FunctionBuilder

/-! ## Emitting methods -/

namespace InsBuilder

/-- Emit with the repair the operation implies for its result type. -/
def unaryOp (b : FunctionBuilder) (op : Op) (ty : Ty) (args : List Value) : Option (FunctionBuilder × List Value) :=
  b.emit op ty (op.defaultRepair ty) args [ty]

def checked (b : FunctionBuilder) (op : Op) (ty : Ty) (x y : Value) : Option (FunctionBuilder × List Value) :=
  b.emit op ty (op.defaultRepair ty) [x, y] [ty, .BOOL]

/-- Why an opcode may not be inlined raw. -/
def reserved (spec : OpSpec) : Option String :=
  if opForm spec ≠ .simple ∨ spec.category = .stackManip then some "the stackifier owns the operand stack"
  else if spec.category = .control then some "EIR owns control flow"
  else if spec.terminating then some "terminating opcodes are terminators"
  else none

/-- A raw opcode; without results handed back where it is rejected. -/
def rawOpcode (b : FunctionBuilder) (mnemonic : String) (ty : Ty) (args : List Value) (results : ℕ) :
    Option (FunctionBuilder × Option (List Value)) :=
  match byMnemonic mnemonic with
  | none => some (b.fail (.unknownMnemonic mnemonic), none)
  | some spec =>
    match reserved spec with
    | some reason => some (b.fail (.reservedOpcode spec.mnemonic reason), none)
    | none =>
      (b.emit (.opcode spec) ty .none args (List.replicate results ty)).map fun (b, values) => (b, some values)

def iconst (b : FunctionBuilder) (ty : Ty) (value : Immediate) := unaryOp b (.const value) ty []

def add (b : FunctionBuilder) (ty : Ty) (x y : Value) := unaryOp b .add ty [x, y]
def sub (b : FunctionBuilder) (ty : Ty) (x y : Value) := unaryOp b .sub ty [x, y]
def mul (b : FunctionBuilder) (ty : Ty) (x y : Value) := unaryOp b .mul ty [x, y]
def div (b : FunctionBuilder) (ty : Ty) (x y : Value) := unaryOp b .div ty [x, y]
def rem (b : FunctionBuilder) (ty : Ty) (x y : Value) := unaryOp b .rem ty [x, y]
def exp (b : FunctionBuilder) (ty : Ty) (base exponent : Value) := unaryOp b .exp ty [base, exponent]

def addOverflow (b : FunctionBuilder) (ty : Ty) (x y : Value) := checked b .addOverflow ty x y
def subOverflow (b : FunctionBuilder) (ty : Ty) (x y : Value) := checked b .subOverflow ty x y
def mulOverflow (b : FunctionBuilder) (ty : Ty) (x y : Value) := checked b .mulOverflow ty x y

def and (b : FunctionBuilder) (ty : Ty) (x y : Value) := unaryOp b .and ty [x, y]
def or (b : FunctionBuilder) (ty : Ty) (x y : Value) := unaryOp b .or ty [x, y]
def xor (b : FunctionBuilder) (ty : Ty) (x y : Value) := unaryOp b .xor ty [x, y]
def not (b : FunctionBuilder) (ty : Ty) (value : Value) := unaryOp b .not ty [value]

def shl (b : FunctionBuilder) (ty : Ty) (value shift : Value) := unaryOp b .shl ty [value, shift]
def shr (b : FunctionBuilder) (ty : Ty) (value shift : Value) := unaryOp b .shr ty [value, shift]
def sar (b : FunctionBuilder) (ty : Ty) (value shift : Value) := unaryOp b .sar ty [value, shift]

/-- Truncate, extend, or reinterpret. -/
def convert (b : FunctionBuilder) (dst : Ty) (value : Value) : Option (FunctionBuilder × List Value) := do
  let src ← b.func.valueType value
  b.emit .convert dst (Repair.forConvert src dst) [value] [dst]

def icmp (b : FunctionBuilder) (cmp : Cmp) (x y : Value) := unaryOp b (.icmp cmp) .BOOL [x, y]

def select (b : FunctionBuilder) (ty : Ty) (cond thn otherwise : Value) :=
  unaryOp b .select ty [cond, thn, otherwise]

def alloca (b : FunctionBuilder) (bytes : UInt32) := unaryOp b (.alloca bytes) .PTR []

def load (b : FunctionBuilder) (ty : Ty) (ptr : Value) := unaryOp b .load ty [ptr]

def store (b : FunctionBuilder) (ptr value : Value) : Option (FunctionBuilder × List Value) := do
  let ty ← b.func.valueType value
  b.emit .store ty .none [ptr, value] []

def memcopy (b : FunctionBuilder) (dst src len : Value) := b.emit .memCopy .PTR .none [dst, src, len] []

def sload (b : FunctionBuilder) (ty : Ty) (key : Value) := unaryOp b .sload ty [key]

def sstore (b : FunctionBuilder) (key value : Value) : Option (FunctionBuilder × List Value) := do
  let ty ← b.func.valueType value
  b.emit .sstore ty .none [key, value] []

def tload (b : FunctionBuilder) (ty : Ty) (key : Value) := unaryOp b .tload ty [key]

def tstore (b : FunctionBuilder) (key value : Value) : Option (FunctionBuilder × List Value) := do
  let ty ← b.func.valueType value
  b.emit .tstore ty .none [key, value] []

/-- Inline a raw EVM opcode, producing one result. -/
def opcode (b : FunctionBuilder) (mnemonic : String) (ty : Ty) (args : List Value) :
    Option (FunctionBuilder × List Value) :=
  (rawOpcode b mnemonic ty args 1).map fun (b, results) => (b, results.getD [Value.new 0])

/-- A raw opcode with no result. -/
def opcodeVoid (b : FunctionBuilder) (mnemonic : String) (args : List Value) : Option (FunctionBuilder × List Value) :=
  (rawOpcode b mnemonic .U256 args 0).map fun (b, _) => (b, [])

/-- An internal call; `sig` is the callee's. -/
def call (b : FunctionBuilder) (callee : Func) (sig : Signature) (args : List Value) :=
  b.emit (.call callee) (sig.returns.head?.getD .U256) .none args sig.returns

end InsBuilder

/-- One call of an emitting method. -/
inductive InsCall
  | iconst (ty : Ty) (value : Immediate)
  | add (ty : Ty) (x y : Value) | sub (ty : Ty) (x y : Value) | mul (ty : Ty) (x y : Value)
  | div (ty : Ty) (x y : Value) | rem (ty : Ty) (x y : Value) | exp (ty : Ty) (base exponent : Value)
  | addOverflow (ty : Ty) (x y : Value) | subOverflow (ty : Ty) (x y : Value) | mulOverflow (ty : Ty) (x y : Value)
  | and (ty : Ty) (x y : Value) | or (ty : Ty) (x y : Value) | xor (ty : Ty) (x y : Value)
  | not (ty : Ty) (value : Value)
  | shl (ty : Ty) (value shift : Value) | shr (ty : Ty) (value shift : Value) | sar (ty : Ty) (value shift : Value)
  | convert (dst : Ty) (value : Value)
  | icmp (cmp : Cmp) (x y : Value)
  | select (ty : Ty) (cond thn otherwise : Value)
  | alloca (bytes : UInt32)
  | load (ty : Ty) (ptr : Value) | store (ptr value : Value) | memcopy (dst src len : Value)
  | sload (ty : Ty) (key : Value) | sstore (key value : Value)
  | tload (ty : Ty) (key : Value) | tstore (key value : Value)
  | opcode (mnemonic : String) (ty : Ty) (args : List Value)
  | opcodeVoid (mnemonic : String) (args : List Value)
  | call (callee : Func) (sig : Signature) (args : List Value)
  deriving DecidableEq

/-- The state and the values after an emitting call. -/
def InsCall.run (b : FunctionBuilder) : InsCall → Option (FunctionBuilder × List Value)
  | iconst ty value => InsBuilder.iconst b ty value
  | add ty x y => InsBuilder.add b ty x y
  | sub ty x y => InsBuilder.sub b ty x y
  | mul ty x y => InsBuilder.mul b ty x y
  | div ty x y => InsBuilder.div b ty x y
  | rem ty x y => InsBuilder.rem b ty x y
  | exp ty x y => InsBuilder.exp b ty x y
  | addOverflow ty x y => InsBuilder.addOverflow b ty x y
  | subOverflow ty x y => InsBuilder.subOverflow b ty x y
  | mulOverflow ty x y => InsBuilder.mulOverflow b ty x y
  | and ty x y => InsBuilder.and b ty x y
  | or ty x y => InsBuilder.or b ty x y
  | xor ty x y => InsBuilder.xor b ty x y
  | not ty value => InsBuilder.not b ty value
  | shl ty value shift => InsBuilder.shl b ty value shift
  | shr ty value shift => InsBuilder.shr b ty value shift
  | sar ty value shift => InsBuilder.sar b ty value shift
  | convert dst value => InsBuilder.convert b dst value
  | icmp cmp x y => InsBuilder.icmp b cmp x y
  | select ty cond thn otherwise => InsBuilder.select b ty cond thn otherwise
  | alloca bytes => InsBuilder.alloca b bytes
  | load ty ptr => InsBuilder.load b ty ptr
  | store ptr value => InsBuilder.store b ptr value
  | memcopy dst src len => InsBuilder.memcopy b dst src len
  | sload ty key => InsBuilder.sload b ty key
  | sstore key value => InsBuilder.sstore b key value
  | tload ty key => InsBuilder.tload b ty key
  | tstore key value => InsBuilder.tstore b key value
  | opcode mnemonic ty args => InsBuilder.opcode b mnemonic ty args
  | opcodeVoid mnemonic args => InsBuilder.opcodeVoid b mnemonic args
  | call callee sig args => InsBuilder.call b callee sig args

/-- One call of the builder's interface. -/
inductive BuilderCall
  | param (n : ℕ) | blockParam (block : Block) (n : ℕ)
  | createBlock | createBlockWith (params : List Ty) | setBlockKind (block : Block) (kind : BlockKind)
  | switchTo (block : Block) | note (text : String)
  | ins (call : InsCall)
  | jump (target : Block) (args : List Value)
  | brif (cond : Value) (thn : Block) (thenArgs : List Value) (otherwise : Block) (elseArgs : List Value)
  | switch (on : Value) (cases : List (Immediate × Block)) (default : Block)
  | ret (values : List Value) | stop | returnData (ptr len : Value) | revert (ptr len : Value)
  | selfdestruct (beneficiary : Value) | invalid | unreachable
  deriving DecidableEq

namespace FunctionBuilder

/-! ## Terminators -/

def jump (b : FunctionBuilder) (target : Block) (args : List Value) := b.terminate (.jump ⟨target, args⟩)

def brif (b : FunctionBuilder) (cond : Value) (thn : Block) (thenArgs : List Value) (otherwise : Block)
    (elseArgs : List Value) :=
  b.terminate (.brif cond ⟨thn, thenArgs⟩ ⟨otherwise, elseArgs⟩)

def switch (b : FunctionBuilder) (on : Value) (cases : List (Immediate × Block)) (default : Block) :=
  b.terminate (.switch on (cases.map fun (value, block) => (value, ⟨block, []⟩)) ⟨default, []⟩)

def ret (b : FunctionBuilder) (values : List Value) := b.terminate (.ret values)
def stop (b : FunctionBuilder) := b.terminate .stop
def returnData (b : FunctionBuilder) (ptr len : Value) := b.terminate (.returnData ptr len)
def revert (b : FunctionBuilder) (ptr len : Value) := b.terminate (.revert ptr len)
def selfdestruct (b : FunctionBuilder) (beneficiary : Value) := b.terminate (.selfDestruct beneficiary)
def invalid (b : FunctionBuilder) := b.terminate .invalid
def unreachable (b : FunctionBuilder) := b.terminate .unreachable

/-! ## Call sequences -/

/-- What a call hands back. -/
inductive Reply
  | unit
  | value (v : Value)
  | values (vs : List Value)
  | block (block : Block)
  deriving DecidableEq

/-- The state and the reply after a call; `none` where the source panics. -/
def step (b : FunctionBuilder) : BuilderCall → Option (FunctionBuilder × Reply)
  | .param n => (b.param n).map fun v => (b, .value v)
  | .blockParam block n => (b.blockParam block n).map fun v => (b, .value v)
  | .createBlock => some (b.createBlock.1, .block b.createBlock.2)
  | .createBlockWith params => some ((b.createBlockWith params).1, .block (b.createBlockWith params).2)
  | .setBlockKind block kind => (b.setBlockKind block kind).map (·, .unit)
  | .switchTo block => some (b.switchTo block, .unit)
  | .note text => some (b.note text, .unit)
  | .ins call => (call.run b).map fun (b, vs) => (b, .values vs)
  | .jump target args => (b.jump target args).map (·, .unit)
  | .brif cond thn thenArgs otherwise elseArgs => (b.brif cond thn thenArgs otherwise elseArgs).map (·, .unit)
  | .switch on cases default => (b.switch on cases default).map (·, .unit)
  | .ret values => (b.ret values).map (·, .unit)
  | .stop => b.stop.map (·, .unit)
  | .returnData ptr len => (b.returnData ptr len).map (·, .unit)
  | .revert ptr len => (b.revert ptr len).map (·, .unit)
  | .selfdestruct beneficiary => (b.selfdestruct beneficiary).map (·, .unit)
  | .invalid => b.invalid.map (·, .unit)
  | .unreachable => b.unreachable.map (·, .unit)

/-- The state after a sequence of calls. -/
def run (b : FunctionBuilder) (calls : List BuilderCall) : Option FunctionBuilder :=
  calls.foldlM (fun b c => (b.step c).map Prod.fst) b

end FunctionBuilder

end RustEvm.Ir
