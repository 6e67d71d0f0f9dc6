import RustEvm.Lib.HashChain
import RustEvm.Lib.Variables
import RustEvm.Storage.Accessors

/-!
# RustEvm.Storage.Independence — a layout is a set of independent variables

`slotOf` is the slot an access path comes to, a hash chain from the slot of the field through the keys.  The accessors
read and write the word at that slot, in the map of their space, and touch nothing else but memory
(`accessorGet_run`, `accessorSet_words`).  As long as the strings that are hashed do not collide, different paths have
different slots (`slotOf_inj`), and the two layouts are a placement of independent variables: `getter_eq_lastWrite`.
-/

namespace RustEvm.Storage

open BigEndian Abi Evm Macros HashChain Variables Contract

/-! ## The words of both spaces -/

/-- Both word maps as one. -/
def words (m : Machine) : HandleKind × U256 → U256
  | (.persistent, slot) => m.storage slot
  | (.transient, slot) => m.transient slot

@[simp] theorem words_memory (m : Machine) (memory : ℕ → UInt8) : words { m with memory := memory } = words m := by
  ext ⟨s, slot⟩
  cases s <;> rfl

/-- A computation gives a value of the words and leaves them as they are. -/
def Reads {α : Type} (x : EvmM α) (f : (HandleKind × U256 → U256) → α) : Prop :=
  ∀ m, (x.run m).1 = f (words m) ∧ words (x.run m).2 = words m

/-- A computation changes the words by a function of them. -/
def Writes (x : EvmM Unit) (f : (HandleKind × U256 → U256) → HandleKind × U256 → U256) : Prop :=
  ∀ m, words (x.run m).2 = f (words m)

section Rules

variable {α β : Type} {x : EvmM α} {f : (HandleKind × U256 → U256) → α}

theorem Reads.bind {k : α → EvmM β} {g : α → (HandleKind × U256 → U256) → β} (hx : Reads x f)
    (hk : ∀ a, Reads (k a) (g a)) : Reads (x >>= k) fun w => g (f w) w := by
  intro m
  obtain ⟨hval, hwords⟩ := hx m
  obtain ⟨hval', hwords'⟩ := hk (x.run m).1 (x.run m).2
  exact ⟨hval'.trans (by rw [hwords, hval]), hwords'.trans hwords⟩

theorem Writes.bind {k : α → EvmM Unit} {g : α → (HandleKind × U256 → U256) → HandleKind × U256 → U256}
    (hx : Reads x f) (hk : ∀ a, Writes (k a) (g a)) : Writes (x >>= k) fun w => g (f w) w := by
  intro m
  obtain ⟨hval, hwords⟩ := hx m
  exact (hk (x.run m).1 (x.run m).2).trans (by rw [hwords, hval])

end Rules

def loadOf : HandleKind → U256 → EvmM U256
  | .persistent => sload
  | .transient => tload

def storeOf : HandleKind → U256 → U256 → EvmM Unit
  | .persistent => sstore
  | .transient => tstore

/-- The flavor of the macro for a space. -/
def flavorOf : HandleKind → Flavor
  | .persistent => .persistent
  | .transient => .transient

theorem readVia_reads (s : HandleKind) (t : ValueTy) (slot : U256) :
    Reads (readVia (loadOf s) t slot) fun w => t.dec (w (s, slot)) := by
  intro m
  rw [readVia_run]
  cases s <;> exact ⟨rfl, rfl⟩

theorem writeVia_writes (s : HandleKind) (t : ValueTy) (v : t.Val) (slot : U256) :
    Writes (writeVia (storeOf s) t v slot) fun w => Function.update w (s, slot) (t.enc v) := by
  intro m
  rw [writeVia_eq]
  ext ⟨s', slot'⟩
  cases s <;> cases s' <;>
    simp [storeOf, sstore, tstore, words, Function.update_apply, modify, modifyGet, MonadStateOf.modifyGet,
      StateT.modifyGet, StateT.run, pure]

/-! ## Accessors over the words -/

section Accessors

variable (keccak : List UInt8 → U256)

/-- `keccak256(key ++ slot)` -/
def mapSlot (key : Abi.Word) (base : U256) : U256 := keccak (key.1 ++ base.1)

/-- The slot of a path. -/
def slotOf (slot : BitVec 64) (shape : Shape) (keys : shape.Keys) : U256 :=
  chain (mapSlot keccak) (U256.fromU64 slot) (shape.keyWords keys)

theorem derivedSlot_reads (base : U256) (k : KeyTy) (key : k.Val) :
    Reads (derivedSlot keccak base k key) fun _ => mapSlot keccak (k.toBytes key) base := by
  intro m
  rw [derivedSlot_run]
  exact ⟨rfl, words_memory m _⟩

theorem getVia_reads (s : HandleKind) (k : KeyTy) (t : ValueTy) (base : U256) (key : k.Val) :
    Reads (getVia keccak (readVia (loadOf s)) k t base key)
      fun w => t.dec (w (s, mapSlot keccak (k.toBytes key) base)) :=
  (derivedSlot_reads keccak base k key).bind (readVia_reads s t)

theorem setVia_writes (s : HandleKind) (k : KeyTy) (t : ValueTy) (base : U256) (key : k.Val) (v : t.Val) :
    Writes (setVia keccak (writeVia (storeOf s)) k t base key v)
      fun w => Function.update w (s, mapSlot keccak (k.toBytes key) base) (t.enc v) :=
  Writes.bind (derivedSlot_reads keccak base k key) (writeVia_writes s t v)

theorem slotRead_flavorOf (s : HandleKind) (t : ValueTy) (slot : BitVec 64) :
    slotRead (flavorOf s).slotTy t slot = readVia (loadOf s) t (U256.fromU64 slot) := by
  cases s <;> rfl

theorem slotWrite_flavorOf (s : HandleKind) (t : ValueTy) (slot : BitVec 64) (v : t.Val) :
    slotWrite (flavorOf s).slotTy t slot v = writeVia (storeOf s) t v (U256.fromU64 slot) := by
  cases s <;> rfl

theorem refGet_flavorOf (s : HandleKind) :
    refGet keccak (flavorOf s).mapRef = getVia keccak (readVia (loadOf s)) := by
  cases s <;> rfl

theorem mutGet_flavorOf (s : HandleKind) :
    mutGet keccak (flavorOf s).mapMut = getVia keccak (readVia (loadOf s)) := by
  cases s <;> rfl

theorem mutSet_flavorOf (s : HandleKind) :
    mutSet keccak (flavorOf s).mapMut = setVia keccak (writeVia (storeOf s)) := by
  cases s <;> rfl

/-- A getter decodes the word at the slot of its path. -/
theorem accessorGet_reads (s : HandleKind) (slot : BitVec 64) (shape : Shape) (keys : shape.Keys) :
    Reads (accessorGet keccak (flavorOf s) slot shape keys)
      fun w => shape.valueTy.dec (w (s, slotOf keccak slot shape keys)) := by
  cases shape with
  | value t =>
    rw [accessorGet, slotRead_flavorOf]
    exact readVia_reads s t _
  | mapping k t =>
    rw [accessorGet, refGet_flavorOf]
    exact getVia_reads keccak s k t _ keys
  | nested k k2 t =>
    rw [accessorGet, refGet_flavorOf]
    exact (derivedSlot_reads keccak _ k keys.1).bind fun base => getVia_reads keccak s k2 t base keys.2

/-- The mutating views read the same. -/
theorem accessorGetMut_eq (s : HandleKind) (slot : BitVec 64) (shape : Shape) (keys : shape.Keys) :
    accessorGetMut keccak (flavorOf s) slot shape keys = accessorGet keccak (flavorOf s) slot shape keys := by
  cases shape with
  | value t => rfl
  | mapping k t => rw [accessorGet, accessorGetMut, refGet_flavorOf, mutGet_flavorOf]
  | nested k k2 t => rw [accessorGet, accessorGetMut, refGet_flavorOf, mutGet_flavorOf]

/-- A setter stores the encoded value there. -/
theorem accessorSet_writes (s : HandleKind) (slot : BitVec 64) (shape : Shape) (keys : shape.Keys)
    (v : shape.valueTy.Val) :
    Writes (accessorSet keccak (flavorOf s) slot shape keys v)
      fun w => Function.update w (s, slotOf keccak slot shape keys) (shape.valueTy.enc v) := by
  cases shape with
  | value t =>
    have hbody : accessorSet keccak (flavorOf s) slot (.value t) keys v =
        writeVia (storeOf s) t v (U256.fromU64 slot) := slotWrite_flavorOf s t slot v
    rw [hbody]
    exact writeVia_writes s t v _
  | mapping k t =>
    rw [accessorSet, mutSet_flavorOf]
    exact setVia_writes keccak s k t _ keys v
  | nested k k2 t =>
    rw [accessorSet, mutSet_flavorOf]
    exact Writes.bind (derivedSlot_reads keccak _ k keys.1) fun base => setVia_writes keccak s k2 t base keys.2 v

end Accessors

/-! ## Slots of different paths -/

theorem typed_slots_sublist (as : List Accessor) :
    List.Sublist ((as.filterMap fun a => (shape? a.kind).map fun shape => (⟨a.slot, shape⟩ : TypedAccessor)).map
      TypedAccessor.slot) (as.map Accessor.slot) := by
  induction as with
  | nil => exact List.Sublist.slnil
  | cons a as ih =>
    cases h : shape? a.kind with
    | none =>
      rw [List.filterMap_cons_none (by rw [h]; rfl)]
      exact ih.trans (List.sublist_cons_self _ _)
    | some shape =>
      rw [List.filterMap_cons_some (by rw [h]; rfl)]
      exact ih.cons_cons _

section Contract

variable {c : Contract}

theorem layout_slots (s : HandleKind) : (c.layout s).flavor = flavorOf s ∧
    (c.layout s).accessors.map (fun a => a.slot.toNat) = List.range (c.layout s).accessors.length := by
  cases s
  · exact expandLayout_slots c.storage_ok
  · exact expandLayout_slots c.transient_ok

theorem slots_nodup (s : HandleKind) : ((c.accessors s).map TypedAccessor.slot).Nodup := by
  have hrange : (((c.layout s).accessors.map Accessor.slot).map BitVec.toNat).Nodup := by
    rw [List.map_map]
    exact (layout_slots s).2 ▸ List.nodup_range
  exact (List.Nodup.of_map _ hrange).sublist (typed_slots_sublist _)

theorem slot_lt (s : HandleKind) (i : Fin (c.accessors s).length) :
    ((c.accessors s).get i).slot.toNat < (c.layout s).accessors.length := by
  have hmem : ((c.accessors s).get i).slot ∈ (c.layout s).accessors.map Accessor.slot :=
    (typed_slots_sublist _).subset (List.mem_map_of_mem (List.get_mem _ i))
  have hnat := List.mem_map_of_mem (f := BitVec.toNat) hmem
  rw [List.map_map] at hnat
  exact List.mem_range.mp ((layout_slots s).2 ▸ hnat)

theorem slot_inj {s : HandleKind} {i j : Fin (c.accessors s).length}
    (h : ((c.accessors s).get i).slot = ((c.accessors s).get j).slot) : i = j := by
  have hnodup := slots_nodup (c := c) s
  have hget : (c.accessors s).get i = (c.accessors s).get j :=
    List.inj_on_of_nodup_map hnodup (List.get_mem _ _) (List.get_mem _ _) h
  exact List.nodup_iff_injective_get.mp (List.Nodup.of_map _ hnodup) hget

variable (keccak : List UInt8 → U256)

/-- The pairs of a key and a slot that are hashed for a path. -/
def hashedPairs (p : c.Var) : List (Abi.Word × U256) :=
  steps (mapSlot keccak) (U256.fromU64 p.accessor.slot) (p.accessor.shape.keyWords p.2.2)

/-- The 64-byte strings that are hashed for some paths. -/
def hashed (ps : List c.Var) : List (List UInt8) :=
  (ps.flatMap (hashedPairs keccak)).map fun x => x.1.1 ++ x.2.1

/-- What is assumed of the hash: no two of the strings hashed for the paths collide, and no hash is below the number
of fields.  It is asked of these strings only, for no function from 64 bytes to 32 is injective. -/
structure CollisionFree (ps : List c.Var) : Prop where
  injective : ∀ a ∈ hashed keccak ps, ∀ b ∈ hashed keccak ps, keccak a = keccak b → a = b
  high : ∀ a ∈ hashed keccak ps, ∀ s, (c.layout s).accessors.length ≤ (keccak a).toNat

variable {keccak}

/-- **Different paths have different slots.** -/
theorem slotOf_inj {ps : List c.Var} (hk : CollisionFree keccak ps) {p q : c.Var} (hp : p ∈ ps) (hq : q ∈ ps)
    (hspace : p.1 = q.1) (hslot : slotOf keccak p.accessor.slot p.accessor.shape p.2.2 =
      slotOf keccak q.accessor.slot q.accessor.shape q.2.2) : p = q := by
  have hstring : ∀ x ∈ ps.flatMap (hashedPairs keccak), x.1.1 ++ x.2.1 ∈ hashed keccak ps :=
    fun x hx => List.mem_map_of_mem hx
  have hinj : ∀ x ∈ ps.flatMap (hashedPairs keccak), ∀ y ∈ ps.flatMap (hashedPairs keccak),
      mapSlot keccak x.1 x.2 = mapSlot keccak y.1 y.2 → x = y := by
    intro x hx y hy heq
    have happ := hk.injective _ (hstring x hx) _ (hstring y hy) heq
    obtain ⟨hkey, hbase⟩ := List.append_inj happ (x.1.2.trans y.1.2.symm)
    exact Prod.ext (Subtype.ext hkey) (Subtype.ext hbase)
  have hroots : ∀ x ∈ ps.flatMap (hashedPairs keccak),
      ¬ (mapSlot keccak x.1 x.2).toNat < (c.layout p.1).accessors.length :=
    fun x hx => Nat.not_lt.mpr (hk.high _ (hstring x hx) p.1)
  have hroot : ∀ r : c.Var, r.1 = p.1 →
      (U256.fromU64 r.accessor.slot).toNat < (c.layout p.1).accessors.length := by
    rintro ⟨s, i, keys⟩ rfl
    rw [U256.toNat_fromU64]
    exact slot_lt _ i
  have hsteps : ∀ r ∈ ps, hashedPairs keccak r ⊆ ps.flatMap (hashedPairs keccak) :=
    fun r hr x hx => List.mem_flatMap.mpr ⟨r, hr, hx⟩
  obtain ⟨hbase, hkeys⟩ := chain_inj (h := mapSlot keccak)
    (R := fun b => b.toNat < (c.layout p.1).accessors.length) hinj hroots (hroot p rfl) (hroot q hspace.symm)
    (hsteps p hp) (hsteps q hq) hslot
  obtain ⟨s, i, keys⟩ := p
  obtain ⟨s', j, keys'⟩ := q
  obtain rfl : s = s' := hspace
  have hnum := congrArg FixedBytes.toNat hbase
  rw [U256.toNat_fromU64, U256.toNat_fromU64] at hnum
  obtain rfl : i = j := slot_inj (BitVec.eq_of_toNat_eq hnum)
  obtain rfl : keys = keys' := Shape.keyWords_inj hkeys
  rfl

/-! ## The result -/

variable (keccak) in
/-- The variables of a contract in the words of both spaces. -/
def placement (c : Contract) : Placement c.Var (HandleKind × U256) U256 (fun p => p.valueTy.Val) where
  addr p := (p.1, slotOf keccak p.accessor.slot p.accessor.shape p.2.2)
  enc p v := p.valueTy.enc v
  dec p w := p.valueTy.dec w
  dec_enc p v := p.valueTy.dec_enc v

theorem getter_reads (p : c.Var) : Reads (getter keccak p) fun w => (placement keccak c).get w p := by
  rw [getter, (layout_slots p.1).1]
  exact accessorGet_reads keccak p.1 _ _ _

theorem getterMut_reads (p : c.Var) : Reads (getterMut keccak p) fun w => (placement keccak c).get w p := by
  rw [getterMut, (layout_slots p.1).1]
  exact (accessorGetMut_eq keccak p.1 p.accessor.slot p.accessor.shape p.2.2) ▸ accessorGet_reads keccak p.1 _ _ _

theorem setter_writes (p : c.Var) (v : p.valueTy.Val) :
    Writes (setter keccak p v) fun w => (placement keccak c).put w ⟨p, v⟩ := by
  rw [setter, (layout_slots p.1).1]
  exact accessorSet_writes keccak p.1 _ _ _ v

/-- A call is its write, if any. -/
theorem call_words (call : c.Call) (m : Machine) :
    words ((call.run keccak).run m).2 = (placement keccak c).puts (words m) call.write?.toList := by
  cases call with
  | get p => exact (getter_reads p m).2
  | getMut p => exact (getterMut_reads p m).2
  | set p v => exact setter_writes p v m

/-- A sequence of calls is the sequence of its writes. -/
theorem runCalls_words (calls : List c.Call) (m : Machine) :
    words ((runCalls keccak calls).run m).2 =
      (placement keccak c).puts (words m) (calls.filterMap Call.write?) := by
  induction calls generalizing m with
  | nil => rfl
  | cons call calls ih =>
    have hrun : ((runCalls keccak (call :: calls)).run m).2 =
        ((runCalls keccak calls).run ((call.run keccak).run m).2).2 := rfl
    rw [hrun, ih, call_words]
    cases hw : call.write? with
    | none => rw [List.filterMap_cons_none hw]; rfl
    | some w => rw [List.filterMap_cons_some hw]; rfl

/-- Storage of which nothing has been written. -/
def freshMachine (memory : ℕ → UInt8) : Machine := ⟨memory, fun _ => U256.zero, fun _ => U256.zero⟩

theorem get_fresh (p : c.Var) (memory : ℕ → UInt8) :
    (placement keccak c).get (words (freshMachine memory)) p = p.valueTy.zero := by
  have hzero : words (freshMachine memory) = fun _ => U256.zero := by
    ext ⟨s, slot⟩
    cases s <;> rfl
  rw [hzero]
  exact p.valueTy.dec_zero

theorem var_of_write? {call : c.Call} {w : (p : c.Var) × p.valueTy.Val} (h : call.write? = some w) :
    call.var = w.1 := by
  cases call with
  | get p => cases h
  | getMut p => cases h
  | set p v =>
    cases h
    rfl

end Contract

/-- **Every getter gives the value last written through its path, or the zero value**, after any sequence of accessor
calls on both handles and whatever is in memory. -/
theorem getter_eq_lastWrite (keccak : List UInt8 → U256) (c : Contract) (calls : List c.Call) (p : c.Var)
    (hk : CollisionFree keccak (p :: calls.map Call.var)) (memory : ℕ → UInt8) :
    let m := ((runCalls keccak calls).run (freshMachine memory)).2
    let v := (lastWrite p (calls.filterMap Call.write?)).getD p.valueTy.zero
    ((getter keccak p).run m).1 = v ∧ ((getterMut keccak p).run m).1 = v := by
  have hget : (placement keccak c).get (words ((runCalls keccak calls).run (freshMachine memory)).2) p =
      (lastWrite p (calls.filterMap Call.write?)).getD p.valueTy.zero := by
    rw [runCalls_words, Placement.get_puts, get_fresh]
    intro w hw haddr
    obtain ⟨call, hcall, hwrite⟩ := List.mem_filterMap.mp hw
    have hmem : w.1 ∈ p :: calls.map Call.var :=
      List.mem_cons_of_mem _ (List.mem_map.mpr ⟨call, hcall, var_of_write? hwrite⟩)
    obtain ⟨hspace, hslot⟩ := Prod.mk.inj haddr
    exact slotOf_inj hk hmem List.mem_cons_self hspace hslot
  exact ⟨(getter_reads p _).1.trans hget, (getterMut_reads p _).1.trans hget⟩

/-! ## A vault -/

section Vault

def tyU256 : Ty := .path [.mk "U256" .none]

def tyBool : Ty := .path [.mk "bool" .none]

def tyAddress : Ty := .path [.mk "Address" .none]

/-- `Mapping<Address, U256>` -/
def tyBalances : Ty := .path [.mk "Mapping" (.angleBracketed [.type tyAddress, .type tyU256])]

/-- A total and balances in storage, a flag and pending amounts in transient storage. -/
def vault : Contract where
  storage :=
    ⟨[], .pub, "VaultStorage", .named [⟨"total_supply", tyU256⟩, ⟨"balances", tyBalances⟩] (by decide)⟩
  transient :=
    ⟨[], .pub, "VaultTransient", .named [⟨"withdrawing", tyBool⟩, ⟨"pending", tyBalances⟩] (by decide)⟩
  persistentLayout := ⟨[], .pub, "VaultStorage", "VaultStorageAccess", .persistent,
    [⟨["total_supply", "set_total_supply"], 0, .value tyU256 false⟩,
      ⟨["balances", "balances_mut"], 1, .mapping tyAddress tyU256⟩]⟩
  transientLayout := ⟨[], .pub, "VaultTransient", "VaultTransientAccess", .transient,
    [⟨["withdrawing", "set_withdrawing", "withdrawing_guard"], 0, .value tyBool true⟩,
      ⟨["pending", "pending_mut"], 1, .mapping tyAddress tyU256⟩]⟩
  storage_ok := rfl
  transient_ok := rfl

def totalSupply : vault.Var := ⟨.persistent, ⟨0, by decide⟩, ()⟩

def balances (who : Address) : vault.Var := ⟨.persistent, ⟨1, by decide⟩, who⟩

def pending (who : Address) : vault.Var := ⟨.transient, ⟨1, by decide⟩, who⟩

def alice : Address := .ofNat 20 0xaa

def bob : Address := .ofNat 20 0xbb

/-- The hashes of the two strings that the calls below hash. -/
def vaultKeccak (bytes : List UInt8) : U256 :=
  if bytes = toBytes 32 0xaa ++ toBytes 32 1 then
    .ofNat 32 0x858c5a7702dbcc7e542bf7cd777756ad7a1cf5ac44f955cea0b7008d7156d4a8
  else if bytes = toBytes 32 0xbb ++ toBytes 32 1 then
    .ofNat 32 0xcb5d68d60c19c76fcdf731edbd11ab5e3896184e552f178bac1b2742bee55fb3
  else U256.zero

def vaultCalls : List vault.Call :=
  [.set (balances alice) (U256.fromU64 5), .set (balances bob) (U256.fromU64 7), .set totalSupply (U256.fromU64 9),
    .set (pending alice) (U256.fromU64 11), .get (balances bob)]

theorem vaultCalls_collisionFree : CollisionFree vaultKeccak (balances alice :: vaultCalls.map Call.var) where
  injective := by decide +kernel
  high := by
    intro a ha s
    revert a
    cases s <;> decide +kernel

/-- Alice keeps her balance of 5. -/
theorem getter_eq_lastWrite_alice :
    (((getter vaultKeccak (balances alice)).run
      ((runCalls vaultKeccak vaultCalls).run (freshMachine fun _ => 0)).2).1 : U256) = U256.fromU64 5 :=
  (getter_eq_lastWrite vaultKeccak vault vaultCalls (balances alice) vaultCalls_collisionFree fun _ => 0).1

end Vault

end RustEvm.Storage
