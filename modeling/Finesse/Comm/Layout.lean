import Finesse.Lib.Memory
import Finesse.Comm.Region
import Finesse.Utils.FastLookup

/-!
# The layout of a message

`fincomm_message_block` and the `finesse_msg` in its `Data`, as the compiler
lays them out on a 64-bit machine. Addresses are relative to the start of
the block, so the next block of the region starts at `shmPageSize`. The
unions make the parameters of all requests and responses share the bytes from
`parameters` on.

A sender is described by its writes. Between the client that makes a request
and the server that reads it, and again on the way back, other threads use
other blocks, and the timestamps of the message itself change; `Untouched`
is what they leave alone.
-/

namespace Finesse.Comm

open Memory
open Finesse.Utils (Uuid)

/-- `SHM_PAGE_SIZE`, which is the size of a block. -/
@[simp] abbrev shmPageSize : Nat := 4096

/-- `offsetof(fincomm_message_block, Data)`. -/
@[simp] abbrev dataOffset : Nat := 16

/-- The address of the byte of `Data` at `o`. -/
@[simp] abbrev msg (o : Nat) : Nat := dataOffset + o

namespace Block

@[simp] abbrev requestId : Nat := 0
@[simp] abbrev result : Nat := 8
@[simp] abbrev messageType : Nat := 12

end Block

/-! Offsets in `finesse_msg`. -/

namespace Offset

@[simp] abbrev version : Nat := 0
@[simp] abbrev messageClass : Nat := 8
@[simp] abbrev result : Nat := 12
@[simp] abbrev requestClass : Nat := 16
@[simp] abbrev requestType : Nat := 20
@[simp] abbrev requestStartTime : Nat := 24
@[simp] abbrev requestQueueTime : Nat := 40
@[simp] abbrev requestDequeueTime : Nat := 56
@[simp] abbrev responseQueueTime : Nat := 72
@[simp] abbrev responseReceiptTime : Nat := 88
@[simp] abbrev requestCompletionTime : Nat := 104
/-- The type of a request or response of either class. -/
@[simp] abbrev messageType : Nat := 120
@[simp] abbrev parameters : Nat := 128

@[simp] abbrev mapFlags : Nat := 144
@[simp] abbrev mapName : Nat := 148
@[simp] abbrev statInode : Nat := 144
@[simp] abbrev statFlags : Nat := 160
@[simp] abbrev statName : Nat := 164
@[simp] abbrev accessName : Nat := 144
@[simp] abbrev accessMask : Nat := 148
@[simp] abbrev unlinkName : Nat := 144
@[simp] abbrev createAttr : Nat := 144
@[simp] abbrev createName : Nat := 288
@[simp] abbrev statfsOptions : Nat := 132
@[simp] abbrev dirmapName : Nat := 144

end Offset

@[simp] abbrev sizeofStat : Nat := 144
@[simp] abbrev sizeofStatvfs : Nat := 112

/-! ## Fields -/

def keyBytes (k : Uuid) : List UInt8 := le 16 k.toNat

@[simp] theorem length_keyBytes (k : Uuid) : (keyBytes k).length = 16 := length_le 16 _

/-- The key at an offset of the message. -/
def keyAt (m : Mem) (o : Nat) : Uuid := BitVec.ofNat 128 (word m (msg o) 16)

def intBytes (v : BitVec 32) : List UInt8 := le 4 v.toNat

@[simp] theorem length_intBytes (v : BitVec 32) : (intBytes v).length = 4 := length_le 4 _

/-- The 32-bit number at an address. -/
def intAt (m : Mem) (a : Nat) : BitVec 32 := BitVec.ofNat 32 (word m a 4)

/-- The string at an offset of the message in block `i`, which `strlen` looks
for up to the end of the region. -/
def nameAt (i : Slot) (m : Mem) (o : Nat) : Option (List UInt8) :=
  stringAt m (msg o) ((64 - i) * shmPageSize - msg o)

variable {m m' : Mem} {o : Nat}

theorem keyAt_eq_iff {k : Uuid} : keyAt m o = k ↔ load m (msg o) 16 = keyBytes k := by
  have hw : word m (msg o) 16 < 2 ^ 128 := by
    have := ofLe_lt (load m (msg o) 16)
    rwa [length_load] at this
  rw [keyBytes, ← word_eq_iff k.isLt, keyAt, ← BitVec.toNat_inj,
    BitVec.toNat_ofNat, Nat.mod_eq_of_lt hw]

theorem intAt_eq_iff {a : Nat} {v : BitVec 32} : intAt m a = v ↔ load m a 4 = intBytes v := by
  have hw : word m a 4 < 2 ^ 32 := by
    have := ofLe_lt (load m a 4)
    rwa [length_load] at this
  rw [intBytes, ← word_eq_iff v.isLt, intAt, ← BitVec.toNat_inj,
    BitVec.toNat_ofNat, Nat.mod_eq_of_lt hw]

/-- What a message in flight keeps: all of `Data` but its timestamps. -/
def Untouched (m m' : Mem) : Prop :=
  ∀ a, dataOffset ≤ a → a < shmPageSize →
    ¬ (msg Offset.requestClass ≤ a ∧ a < msg Offset.messageType) → m' a = m a

theorem Untouched.refl (m : Mem) : Untouched m m := fun _ _ _ _ => rfl

theorem Untouched.load {a n : Nat} {d : List UInt8} (h : Untouched m m') (hl : load m a n = d)
    (ha : dataOffset ≤ a ∧ a + n ≤ msg Offset.requestClass ∨
      msg Offset.messageType ≤ a ∧ a + n ≤ shmPageSize) : load m' a n = d := by
  rw [← hl]
  simp only [msg, dataOffset, shmPageSize, Offset.requestClass, Offset.messageType] at ha
  refine load_congr fun x hx hn => h x ?_ ?_ ?_ <;>
    simp only [msg, dataOffset, shmPageSize, Offset.requestClass, Offset.messageType] <;> omega

theorem Untouched.keyAt {k : Uuid} (h : Untouched m m') (hl : Memory.load m (msg o) 16 = keyBytes k)
    (ho : Offset.messageType ≤ o ∧ msg o + 16 ≤ shmPageSize) : keyAt m' o = k :=
  keyAt_eq_iff.mpr (h.load hl (.inr ⟨Nat.add_le_add_left ho.1 _, ho.2⟩))

theorem Untouched.intAt {v : BitVec 32} (h : Untouched m m')
    (hl : Memory.load m (msg o) 4 = intBytes v)
    (ho : Offset.messageType ≤ o ∧ msg o + 4 ≤ shmPageSize) : intAt m' (msg o) = v :=
  intAt_eq_iff.mpr (h.load hl (.inr ⟨Nat.add_le_add_left ho.1 _, ho.2⟩))

theorem Untouched.trans {m1 m2 : Mem} (h : Untouched m m1)
    (h' : Untouched m1 m2) : Untouched m m2 := fun a hlo hhi hs =>
  (h' a hlo hhi hs).trans (h a hlo hhi hs)

theorem Untouched.symm (h : Untouched m m') : Untouched m' m :=
  fun a hlo hhi hs => (h a hlo hhi hs).symm

/-- Others may change the first byte after the block. -/
theorem untouched_update (m : Mem) (b : UInt8) :
    Untouched m (Function.update m shmPageSize b) := fun _ _ hhi _ =>
  Function.update_of_ne (Nat.ne_of_lt hhi) b m

end Finesse.Comm
