import RustEvm.Ir.Inst

/-!
# RustEvm.Ir.Func — a function: three arenas and the blocks that index into them

Everything is a list keyed by the index of an entity, and indices are cut to 32 bits when an entity is made.  The
construction functions are total; where the source indexes an arena with an entity that may be foreign, the callers
in the builder check it first.

`appendInst_eq` says what appending an instruction does to the arenas, as long as they fit their indices.
-/

namespace RustEvm.Ir

/-- Where a value came from. -/
inductive ValueDef
  | result (inst : Inst) (index : UInt16)
  | param (block : Block) (index : UInt16)
  deriving DecidableEq, Repr

structure ValueData where
  ty : Ty
  defn : ValueDef
  deriving DecidableEq, Repr

/-- What a block is for. -/
inductive BlockKind
  | normal
  /-- A cold block that exists to revert. -/
  | panic
  deriving DecidableEq, Repr

structure BlockData where
  params : List Value
  /-- Straight-line body. -/
  insts : List Inst
  /-- `none` until the block is finished. -/
  term : Option Terminator
  kind : BlockKind
  deriving DecidableEq

/-- A function's parameter and return types. -/
structure Signature where
  params : List Ty
  returns : List Ty
  deriving DecidableEq, Repr

/-- One function body. -/
structure Function where
  name : String
  sig : Signature
  entry : Block
  insts : List InstData
  values : List ValueData
  blocks : List BlockData
  deriving DecidableEq

/-- The instruction with more results pushed. -/
def InstData.addResults (data : InstData) (values : List Value) : InstData :=
  { data with results := data.results ++ values }

@[simp] theorem InstData.addResults_nil (data : InstData) : data.addResults [] = data := by
  simp [addResults]

@[simp] theorem InstData.addResults_addResults (data : InstData) (vs ws : List Value) :
    (data.addResults vs).addResults ws = data.addResults (vs ++ ws) := by
  simp [addResults]

namespace Function

/-! ## Construction -/

def createBlock (f : Function) : Function × Block :=
  ({ f with blocks := f.blocks ++ [{ params := [], insts := [], term := none, kind := .normal }] },
    Block.new f.blocks.length)

def pushValue (f : Function) (data : ValueData) : Function × Value :=
  ({ f with values := f.values ++ [data] }, Value.new f.values.length)

/-- Append a parameter to a block.  The index of the parameter is cut to 16 bits. -/
def appendParam (f : Function) (block : Block) (ty : Ty) : Function × Value :=
  let index := UInt16.ofNat ((f.blocks[block.index]?).elim 0 fun data => data.params.length)
  let (f, value) := f.pushValue { ty, defn := .param block index }
  ({ f with blocks := f.blocks.modify block.index fun data => { data with params := data.params ++ [value] } }, value)

/-- The loop of `append_inst`: mint one value per result type, `index` of them having been minted. -/
def mintResults (inst : Inst) : ℕ → List Ty → Function → Function
  | _, [], f => f
  | index, ty :: tys, f =>
    let (f, value) := f.pushValue { ty, defn := .result inst (UInt16.ofNat index) }
    mintResults inst (index + 1) tys
      { f with insts := f.insts.modify inst.index fun data => data.addResults [value] }

/-- Append an instruction to `block`, minting one value per result.  The instruction is pushed before its results. -/
def appendInst (f : Function) (block : Block) (data : InstData) (resultTypes : List Ty) : Function × Inst :=
  let inst := Inst.new f.insts.length
  let f := mintResults inst 0 resultTypes { f with insts := f.insts ++ [{ data with results := [] }] }
  ({ f with blocks := f.blocks.modify block.index fun data => { data with insts := data.insts ++ [inst] } }, inst)

def setTerminator (f : Function) (block : Block) (term : Terminator) : Function :=
  { f with blocks := f.blocks.modify block.index fun data => { data with term := some term } }

def setBlockKind (f : Function) (block : Block) (kind : BlockKind) : Function :=
  { f with blocks := f.blocks.modify block.index fun data => { data with kind } }

def setNote (f : Function) (inst : Inst) (note : String) : Function :=
  { f with insts := f.insts.modify inst.index fun data => { data with note := some note } }

/-- A function with an entry block carrying one parameter per signature parameter. -/
def new (name : String) (sig : Signature) : Function :=
  let f : Function := { name, sig, entry := Block.new 0, insts := [], values := [], blocks := [] }
  let (f, entry) := f.createBlock
  sig.params.foldl (fun f ty => (f.appendParam entry ty).1) f

/-! ## Reading -/

/-- The type recorded for a value; `none` where the source indexes out of range. -/
def valueType (f : Function) (v : Value) : Option Ty := (f.values[v.index]?).map ValueData.ty

/-- The results of an instruction. -/
def results (f : Function) (inst : Inst) : List Value := (f.insts[inst.index]?).elim [] InstData.results

/-! ## What construction does -/

/-- The values an instruction mints, the arena holding `start` of them before. -/
def minted (start : ℕ) (tys : List Ty) : List Value := (List.range' start tys.length).map Value.new

theorem minted_cons (start : ℕ) (ty : Ty) (tys : List Ty) :
    minted start (ty :: tys) = Value.new start :: minted (start + 1) tys := by
  simp [minted, List.range'_succ]

/-- The arena entries of those values. -/
def mintedData (inst : Inst) : ℕ → List Ty → List ValueData
  | _, [] => []
  | index, ty :: tys => { ty, defn := .result inst (UInt16.ofNat index) } :: mintedData inst (index + 1) tys

theorem mintResults_eq (inst : Inst) (index : ℕ) (tys : List Ty) (f : Function) :
    mintResults inst index tys f =
      { f with
        values := f.values ++ mintedData inst index tys
        insts := f.insts.modify inst.index fun data => data.addResults (minted f.values.length tys) } := by
  induction tys generalizing index f with
  | nil =>
    have hid : f.insts.modify inst.index (fun data => data.addResults []) = f.insts := by
      rw [show (fun data : InstData => data.addResults []) = id from funext fun data => data.addResults_nil,
        List.modify_id]
    simp only [mintResults, minted, mintedData, List.length_nil, List.range'_zero, List.map_nil, hid, List.append_nil]
  | cons ty tys ih =>
    rw [mintResults, pushValue]
    simp only
    rw [ih]
    have hcomp : (fun data : InstData => data.addResults (minted (f.values.length + 1) tys)) ∘
        (fun data : InstData => data.addResults [Value.new f.values.length]) =
        fun data : InstData => data.addResults (minted f.values.length (ty :: tys)) := by
      funext data
      simp [minted_cons]
    simp [mintedData, List.modify_modify_eq, hcomp]

theorem modify_concat {α : Type*} (xs : List α) (x : α) (g : α → α) :
    (xs ++ [x]).modify xs.length g = xs ++ [g x] := by
  induction xs with
  | nil => rfl
  | cons y xs ih => simp [ih]

/-- The instruction an append leaves in the arena. -/
def appended (f : Function) (data : InstData) (tys : List Ty) : InstData :=
  { data with results := minted f.values.length tys }

/-- **Appending an instruction**, the instruction arena fitting its indices: one new instruction naming the values
minted for it, and nothing else in the two arenas changes. -/
theorem appendInst_eq {f : Function} (hfit : f.insts.length < 2 ^ 32) (block : Block) (data : InstData)
    (tys : List Ty) :
    f.appendInst block data tys =
      ({ f with
         values := f.values ++ mintedData (Inst.new f.insts.length) 0 tys
         insts := f.insts ++ [f.appended data tys]
         blocks := f.blocks.modify block.index fun b => { b with insts := b.insts ++ [Inst.new f.insts.length] } },
        Inst.new f.insts.length) := by
  have hindex : (Inst.new f.insts.length).index = f.insts.length := by
    simp only [Inst.new, Inst.index]
    exact UInt32.toNat_ofNat_of_lt' (by simpa [UInt32.size] using hfit)
  rw [appendInst]
  simp only [mintResults_eq, hindex, modify_concat]
  simp [appended, InstData.addResults]

end Function

end RustEvm.Ir
