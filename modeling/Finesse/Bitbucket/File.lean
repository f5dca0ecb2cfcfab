import Finesse.Lib.Buffer
import Finesse.Lib.Machine

/-!
# Regular files

`file.c`, and what the write, write_buf, setattr, open and read handlers do with
the storage of a file once they have found the inode. A file has a size, a
pointer `Map` to its bytes, and, if the file system has a storage directory, a
file there whose pages `Map` maps. Without one `Map` is a block from `malloc`.

A step that goes through a null or dangling pointer or outside the memory
that `Map` points to is `none`, like a failed assertion. `malloc`, `mmap` and
`ftruncate` succeed. Offsets and sizes are not negative, and their sums do not
overflow. The number of blocks is left out.
-/

namespace Finesse.Bitbucket

open Buffer List Machine

/-- `File.Map`: null, a block from `malloc`, a block that was freed, or the
first bytes of the storage file. -/
inductive Map where
  | null
  | block (bytes : List UInt8)
  | dangling
  | mapped (length : Nat)
deriving DecidableEq, Repr

/-- The size of a file (`st_size`), its map, and the contents of its storage
file, if it has a `MapName`. -/
structure File where
  size : Nat
  map : Map
  storage : Option (List UInt8)
deriving DecidableEq, Repr

namespace File

/-- `n` bytes are read at `Map + o`. -/
def load (f : File) (o n : Nat) : Option (List UInt8) :=
  match f.map, f.storage with
  | .block bytes, _ => if o + n ≤ bytes.length then some (slice bytes o n) else none
  | .mapped length, some bytes =>
    if o + n ≤ min length bytes.length then some (slice bytes o n) else none
  | _, _ => none

/-- `memcpy` to `Map + o`. -/
def store (f : File) (o : Nat) (d : List UInt8) : Option File :=
  match f.map, f.storage with
  | .block bytes, _ =>
    if o + d.length ≤ bytes.length then
      some { f with map := .block (splice bytes o d) }
    else none
  | .mapped length, some bytes =>
    if o + d.length ≤ min length bytes.length then
      some { f with storage := some (splice bytes o d) }
    else none
  | _, _ => none

/-- `munmap` of `st_size` bytes, which fails for none. -/
def munmap (f : File) : Option Unit := if f.size = 0 then none else some ()

/-- `BitbucketAdjustFileStorage`. The new block of a file without storage is
not followed by a change of the size, and a block that `realloc` returns is
freed again at the end of the function. -/
def bitbucketAdjustFileStorage (f : File) (newLength : Nat) : Option File :=
  if newLength = f.size then some f
  else
    match f.map, f.storage with
    | .null, none =>
      if newLength = 0 then some f
      else some { f with map := .block (replicate newLength 0) }
    | .null, some bytes =>
      if newLength = 0 then some f
      else some ⟨newLength, .mapped newLength, some (resize 0 bytes newLength)⟩
    | .dangling, none => none
    | _, none =>
      if newLength = 0 then some ⟨0, .null, none⟩
      else some { f with map := .dangling }
    | _, some bytes =>
      match f.munmap with
      | none => none
      | some () =>
        if newLength = 0 then some ⟨0, .null, some bytes⟩
        else
          some ⟨newLength, .mapped newLength, some (resize 0 bytes newLength)⟩

end File

/-- Where the bytes of a `struct fuse_buf` are: in memory, or in a file
descriptor, which `pread` reads at an offset and `read` reads from where it
stands. -/
inductive Source where
  | mem (bytes : List UInt8)
  | fd (size : Nat) (pread : Nat → Option (List UInt8)) (read : List UInt8)

/-- `struct fuse_buf`, with the flag `FUSE_BUF_FD_SEEK`. -/
structure FuseBuf where
  source : Source
  fdSeek : Bool
  pos : Nat

def FuseBuf.size (b : FuseBuf) : Nat :=
  match b.source with
  | .mem bytes => bytes.length
  | .fd size _ _ => size

/-- The bytes that a buffer stands for. -/
def FuseBuf.contents (b : FuseBuf) : List UInt8 :=
  match b.source with
  | .mem bytes => bytes
  | .fd size pread read =>
    (if b.fdSeek then (pread b.pos).getD [] else read).take size

/-- `struct fuse_bufvec`: the data starts at offset `off` of buffer `idx`. -/
structure FuseBufvec where
  buf : List FuseBuf
  idx : Nat
  off : Nat

/-- The data that a buffer vector stands for. -/
def FuseBufvec.data (v : FuseBufvec) : List UInt8 :=
  ((v.buf.drop v.idx).flatMap FuseBuf.contents).drop v.off

/-- The buffers that the write_buf handler looks at: the handler has
`idx >= index` where the other comparison is meant. -/
def FuseBufvec.seen (v : FuseBufvec) : List FuseBuf := v.buf.take (v.idx + 1)

inductive FileRequest where
  | write (off : Nat) (buf : List UInt8)
  | writeBuf (off : Nat) (bufv : FuseBufvec)
  /-- setattr with `FUSE_SET_ATTR_SIZE`. -/
  | setSize (size : Nat)
  /-- open with `O_TRUNC`. -/
  | truncate
  | read (off size : Nat)

inductive FileReply where
  | written (count : Nat)
  | attr (size : Nat)
  | opened
  | data (bytes : List UInt8)
deriving DecidableEq, Repr

namespace File

/-- A file as `BitbucketCreateFile` makes it. -/
def create (storageDir : Bool) : File :=
  ⟨0, .null, if storageDir then some [] else none⟩

/-- `bitbucket_internal_write`, for a regular file. -/
def write (f : File) (off : Nat) (buf : List UInt8) : Option (FileReply × File) :=
  if buf = [] then some (.written 0, f)
  else if off + buf.length > f.size then
    -- the size is moved first, so that there is nothing left to adjust
    match bitbucketAdjustFileStorage { f with size := off + buf.length }
        (off + buf.length) with
    | none => none
    | some f => some (.written buf.length, f)
  else
    match f.store off buf with
    | none => none
    | some f => some (.written buf.length, f)

/-- The copying loop of `bitbucket_internal_write_buf`. -/
def copyBuffers (f : File) (offset : Nat) : List FuseBuf → Option File
  | [] => some f
  | b :: bs =>
    let foff := if b.fdSeek then b.pos else offset
    match b.source with
    | .fd size pread _ =>
      match pread foff with
      | none => copyBuffers f ((offset + (2 ^ 64 - 1)) % 2 ^ 64) bs
      | some bytes =>
        match f.store offset (bytes.take size) with
        | none => none
        | some f => copyBuffers f (offset + (bytes.take size).length) bs
    | .mem bytes =>
      if offset + bytes.length ≤ f.size then
        match f.store foff bytes with
        | none => none
        | some f => copyBuffers f (offset + bytes.length) bs
      else none

/-- `bitbucket_internal_write_buf`, for a regular file. -/
def writeBuf (f : File) (off : Nat) (bufv : FuseBufvec) : Option (FileReply × File) :=
  let size := (bufv.seen.map FuseBuf.size).sum
  if size = 0 then some (.written 0, f)
  else
    let grown := if off + size > f.size then
        match bitbucketAdjustFileStorage f (off + size) with
        | none => none
        | some f => some { f with size := off + size }
      else some f
    match grown with
    | none => none
    | some f =>
      match copyBuffers f off bufv.seen with
      | none => none
      | some f => some (.written size, f)

/-- The size part of `bitbucket_internal_setattr`, for a regular file. -/
def setSize (f : File) (size : Nat) : Option (FileReply × File) :=
  if f.size = size then some (.attr f.size, f)
  else
    match bitbucketAdjustFileStorage f size with
    | none => none
    | some f => some (.attr f.size, f)

/-- The truncation in `bitbucket_internal_open`, for a regular file. -/
def truncate (f : File) : Option (FileReply × File) :=
  if f.size > 0 then
    match bitbucketAdjustFileStorage f 0 with
    | none => none
    | some f => some (.opened, f)
  else some (.opened, f)

/-- `bitbucket_internal_read`, for a regular file. -/
def read (f : File) (off size : Nat) : Option (FileReply × File) :=
  if size = 0 ∨ off > f.size then some (.data [], f)
  else
    let outsize := if size + off > f.size then f.size - off else size
    if outsize = 0 then some (.data [], f)
    else
      match f.load off outsize with
      | none => none
      | some bytes => some (.data bytes, f)

def step (f : File) (r : FileRequest) : Option (List FileReply × File) :=
  match (match r with
    | .write off buf => f.write off buf
    | .writeBuf off bufv => f.writeBuf off bufv
    | .setSize size => f.setSize size
    | .truncate => f.truncate
    | .read off size => f.read off size) with
  | none => none
  | some (reply, f) => some ([reply], f)

end File

/-! ## The abstract file

What a file is for: a sequence of bytes. -/

/-- The meaning of a request on a sequence of bytes. -/
def Contents.step (a : List UInt8) : FileRequest → Option (List FileReply × List UInt8)
  | .write off buf => some ([.written buf.length], overwrite 0 a off buf)
  | .writeBuf off bufv =>
    some ([.written bufv.data.length], overwrite 0 a off bufv.data)
  | .setSize size => some ([.attr size], resize 0 a size)
  | .truncate => some ([.opened], [])
  | .read off size => some ([.data (slice a off size)], a)

/-- The files that stand for a sequence of bytes. -/
inductive File.Represents : File → List UInt8 → Prop
  | empty (storage : Option (List UInt8)) : Represents ⟨0, .null, storage⟩ []
  | block {a : List UInt8} (ha : a ≠ []) :
    Represents ⟨a.length, .block a, none⟩ a
  | mapped {a : List UInt8} (ha : a ≠ []) :
    Represents ⟨a.length, .mapped a.length, some a⟩ a

/-- A buffer that the write_buf handler reads as it is meant: in memory and
without a position, or a file descriptor with one. -/
def FuseBuf.Direct (b : FuseBuf) : Prop :=
  match b.source with
  | .mem _ => b.fdSeek = false
  | .fd size pread _ =>
    b.fdSeek = true ∧ (pread b.pos).map List.length = some size

/-- The buffers that the write_buf handler looks at hold the data. -/
def FuseBufvec.Plain (v : FuseBufvec) : Prop :=
  (∀ b ∈ v.seen, b.Direct) ∧ v.seen.flatMap FuseBuf.contents = v.data

/-- A file that can be made longer: without storage only if it is empty, and
with storage only if no bytes of an earlier, longer time are left. -/
def File.Growable (f : File) (n : Nat) : Prop :=
  match f.map, f.storage with
  | .null, none => True
  | .null, some bytes => ∀ b ∈ bytes.take n, b = 0
  | _, none => False
  | _, some _ => True

instance (b : FuseBuf) : Decidable b.Direct :=
  match b with
  | ⟨.mem _, fdSeek, _⟩ => inferInstanceAs (Decidable (fdSeek = false))
  | ⟨.fd size pread _, fdSeek, pos⟩ => inferInstanceAs (Decidable
      (fdSeek = true ∧ (pread pos).map List.length = some size))

instance (v : FuseBufvec) : Decidable v.Plain :=
  inferInstanceAs (Decidable ((∀ b ∈ v.seen, b.Direct) ∧ _))

instance (f : File) (n : Nat) : Decidable (f.Growable n) :=
  match f with
  | ⟨_, .null, none⟩ => isTrue trivial
  | ⟨_, .null, some bytes⟩ =>
    inferInstanceAs (Decidable (∀ b ∈ bytes.take n, b = 0))
  | ⟨_, .block _, none⟩ | ⟨_, .dangling, none⟩ | ⟨_, .mapped _, none⟩ =>
    isFalse id
  | ⟨_, .block _, some _⟩ | ⟨_, .dangling, some _⟩ | ⟨_, .mapped _, some _⟩ =>
    isTrue trivial

/-- The requests that do to a file what they should. -/
def File.Supported (f : File) : FileRequest → Prop
  | .write off buf => buf = [] ∨ off + buf.length ≤ f.size
  | .writeBuf off bufv => bufv.Plain ∧ (bufv.data = [] ∨
      off + bufv.data.length ≤ f.size ∨ f.Growable (off + bufv.data.length))
  | .setSize size => size = f.size ∨ size = 0 ∨
      f.storage.isSome = true ∧ f.Growable size
  | .truncate => True
  | .read _ _ => True

instance (f : File) (r : FileRequest) : Decidable (f.Supported r) :=
  match r with
  | .write _ _ => inferInstanceAs (Decidable (_ ∨ _))
  | .writeBuf _ _ => inferInstanceAs (Decidable (_ ∧ _))
  | .setSize _ => inferInstanceAs (Decidable (_ ∨ _))
  | .truncate | .read _ _ => isTrue trivial

variable {a d : List UInt8} {f : File} {bs : List FuseBuf} {n o off : Nat}

namespace File

theorem Represents.size (h : f.Represents a) : f.size = a.length := by
  cases h <;> rfl

theorem represents_create (storageDir : Bool) : (create storageDir).Represents [] := .empty _

section

variable (h : f.Represents a)
include h

theorem Represents.load (hn : n ≠ 0)
    (hle : o + n ≤ a.length) : f.load o n = some (slice a o n) := by
  cases h with
  | empty => simp only [length_nil] at hle; omega
  | block => exact if_pos hle
  | mapped => exact if_pos (by rwa [Nat.min_self])

theorem Represents.store (ha : a ≠ []) (hle : o + d.length ≤ a.length) :
    ∃ f', f.store o d = some f' ∧ f'.Represents (splice a o d) ∧ f'.size = f.size := by
  have hlen := length_splice hle
  have hne : splice a o d ≠ [] := fun h0 =>
    ha (length_eq_zero_iff.mp (by rw [← hlen, h0]; rfl))
  cases h with
  | empty => exact absurd rfl ha
  | block =>
    refine ⟨_, if_pos hle, ?_, rfl⟩
    rw [← hlen]
    exact .block hne
  | mapped =>
    refine ⟨_, if_pos (by rwa [Nat.min_self]), ?_, rfl⟩
    rw [← hlen]
    exact .mapped hne

theorem Represents.store_nil (ha : a ≠ []) (hle : o ≤ a.length) : f.store o [] = some f := by
  cases h with
  | empty => exact absurd rfl ha
  | block => simp only [File.store, splice_nil, length_nil, Nat.add_zero, if_pos hle]
  | mapped =>
    simp only [File.store, splice_nil, length_nil, Nat.add_zero, Nat.min_self, if_pos hle]

theorem Represents.store_append {f' : File} {e : List UInt8} (hle : o + d.length ≤ a.length)
    (hst : f.store o d = some f') : f.store o (d ++ e) = f'.store (o + d.length) e := by
  have hlen := length_splice hle
  have hsp := splice_splice (d := d) (e := e) (show o ≤ a.length by omega)
  cases h with
  | empty => cases hst
  | block =>
    cases (if_pos hle).symm.trans hst
    simp only [File.store, hlen, hsp, length_append, Nat.add_assoc]
  | mapped =>
    cases (if_pos (by rwa [Nat.min_self])).symm.trans hst
    simp only [File.store, hlen, hsp, length_append, Nat.add_assoc]

theorem Represents.zero (hne : f.size ≠ 0) :
    ∃ f', bitbucketAdjustFileStorage f 0 = some f' ∧ f'.Represents [] := by
  rw [bitbucketAdjustFileStorage, if_neg (Ne.symm hne)]
  cases h with
  | empty => exact absurd rfl hne
  | block => exact ⟨_, rfl, .empty none⟩
  | mapped => exact ⟨_, by rw [munmap, if_neg hne]; rfl, .empty _⟩

theorem Represents.adjust (hs : f.storage.isSome = true) (hg : f.Growable n)
    (hne : n ≠ f.size) (hn : n ≠ 0) : ∃ f', bitbucketAdjustFileStorage f n = some f' ∧ f'.size = n ∧
      f'.Represents (resize 0 a n) := by
  have hmapped : Represents ⟨n, .mapped n, some (resize 0 a n)⟩ (resize 0 a n) := by
    have := Represents.mapped (resize_ne_nil 0 a hn)
    rwa [length_resize] at this
  rw [bitbucketAdjustFileStorage, if_neg hne]
  cases h with
  | empty storage =>
    cases storage with
    | none => cases hs
    | some bytes =>
      refine ⟨_, if_neg hn, rfl, ?_⟩
      rw [resize_of_blank hg]
      exact hmapped
  | block => cases hs
  | mapped ha =>
    have hsize : a.length ≠ 0 := fun h0 => ha (length_eq_zero_iff.mp h0)
    simp only [munmap, if_neg hsize, if_neg hn]
    exact ⟨_, rfl, rfl, hmapped⟩

/-- The growth in the write_buf handler, which sets the size itself. -/
theorem Represents.grow
    (hg : f.Growable n) (hlt : f.size < n) : ∃ f', bitbucketAdjustFileStorage f n = some f' ∧
      Represents { f' with size := n } (resize 0 a n) := by
  have hn : n ≠ 0 := by omega
  have hne : n ≠ f.size := by omega
  cases hs : f.storage with
  | some bytes =>
    obtain ⟨f', hadj, rfl, hr⟩ := h.adjust (by rw [hs]; rfl) hg hne hn
    exact ⟨f', hadj, hr⟩
  | none =>
    rw [bitbucketAdjustFileStorage, if_neg hne]
    cases h with
    | empty =>
      simp only at hs
      subst hs
      refine ⟨_, if_neg hn, ?_⟩
      have := Represents.block (resize_ne_nil 0 [] hn)
      rw [length_resize, resize_nil] at this
      rw [resize_nil]
      exact this
    | block => exact absurd hg id
    | mapped => cases hs

end

/-! ## Refinement, request by request -/

theorem ne_nil_of_le (hd : d ≠ []) (hle : o + d.length ≤ a.length) : a ≠ [] := by
  have := length_pos_iff.mpr hd
  exact length_pos_iff.mp (by omega)

theorem write_refines {buf : List UInt8} (h : f.Represents a)
    (hs : f.Supported (.write off buf)) : ∃ f', f.write off buf = some (.written buf.length, f') ∧
      f'.Represents (overwrite 0 a off buf) := by
  rw [write]
  by_cases hb : buf = []
  · rw [if_pos hb, hb, overwrite, if_pos rfl]
    exact ⟨f, rfl, h⟩
  have hle : off + buf.length ≤ f.size := hs.resolve_left hb
  have hla : off + buf.length ≤ a.length := h.size ▸ hle
  obtain ⟨f', hst, hr, -⟩ := h.store (ne_nil_of_le hb hla) hla
  rw [if_neg hb, if_neg (Nat.not_lt.mpr hle), hst, overwrite_of_le hla]
  exact ⟨f', rfl, hr⟩

theorem FuseBuf.Direct.size {b : FuseBuf} (hb : b.Direct) : b.size = b.contents.length := by
  obtain ⟨source, fdSeek, pos⟩ := b
  cases source with
  | mem bytes => rfl
  | fd size pread read =>
    obtain ⟨hseek, hlen⟩ := hb
    simp only at hseek hlen
    obtain ⟨bytes, hp, hl⟩ := Option.map_eq_some_iff.mp hlen
    simp [FuseBuf.size, FuseBuf.contents, hseek, hp, hl]

theorem copyBuffers_cons {b : FuseBuf} (hb : b.Direct) (hle : off + b.contents.length ≤ f.size) :
    copyBuffers f off (b :: bs) = match f.store off b.contents with
      | none => none
      | some f => copyBuffers f (off + b.contents.length) bs := by
  obtain ⟨source, fdSeek, pos⟩ := b
  cases source with
  | mem bytes =>
    simp only [FuseBuf.Direct] at hb
    subst hb
    simp only [FuseBuf.contents] at hle ⊢
    simp only [copyBuffers, if_pos hle, Bool.false_eq_true, if_false]
  | fd size pread read =>
    obtain ⟨hseek, hlen⟩ := hb
    simp only at hseek hlen
    subst hseek
    obtain ⟨bytes, hp, -⟩ := Option.map_eq_some_iff.mp hlen
    simp only [copyBuffers, FuseBuf.contents, if_true, hp, Option.getD_some]

/-- The copying loop writes the buffers one after the other, which is to write
all their bytes at once. -/
theorem copyBuffers_eq_store :
    ∀ {f : File} {a : List UInt8} {off : Nat}, f.Represents a → a ≠ [] → (∀ b ∈ bs, b.Direct) →
      off + (bs.flatMap FuseBuf.contents).length ≤ a.length →
      copyBuffers f off bs = f.store off (bs.flatMap FuseBuf.contents) := by
  induction bs with
  | nil =>
    intro f a off h ha _ hle
    exact (h.store_nil ha hle).symm
  | cons b bs ih =>
    intro f a off h ha hb hle
    rw [flatMap_cons, length_append] at hle
    have hle1 : off + b.contents.length ≤ a.length := by omega
    obtain ⟨f1, hst, hr1, -⟩ := h.store ha hle1
    have hlen := length_splice hle1
    have ha1 : splice a off b.contents ≠ [] := fun h0 =>
      ha (length_eq_zero_iff.mp (by rw [← hlen, h0]; rfl))
    rw [copyBuffers_cons (hb b mem_cons_self) (h.size ▸ hle1), hst,
      flatMap_cons, h.store_append hle1 hst]
    exact ih hr1 ha1 (fun c hm => hb c (mem_cons_of_mem _ hm)) (by omega)

theorem copyBuffers_refines (h : f.Represents a) (ha : a ≠ []) (hb : ∀ b ∈ bs, b.Direct)
    (hle : off + (bs.flatMap FuseBuf.contents).length ≤ a.length) :
    ∃ f', copyBuffers f off bs = some f' ∧
      f'.Represents (splice a off (bs.flatMap FuseBuf.contents)) := by
  obtain ⟨f', hst, hr, -⟩ := h.store ha hle
  exact ⟨f', (copyBuffers_eq_store h ha hb hle).trans hst, hr⟩

theorem size_of_direct (h : ∀ b ∈ bs, b.Direct) :
    (bs.map FuseBuf.size).sum = (bs.flatMap FuseBuf.contents).length := by
  rw [length_flatMap]
  congr 1
  exact map_congr_left fun b hb => FuseBuf.Direct.size (h b hb)

theorem FuseBufvec.Plain.size {v : FuseBufvec} (h : v.Plain) :
    (v.seen.map FuseBuf.size).sum = v.data.length := by
  rw [size_of_direct h.1, h.2]

theorem writeBuf_refines {bufv : FuseBufvec}
    (h : f.Represents a) (hs : f.Supported (.writeBuf off bufv)) :
    ∃ f', f.writeBuf off bufv = some (.written bufv.data.length, f') ∧
      f'.Represents (overwrite 0 a off bufv.data) := by
  obtain ⟨hplain, hroom⟩ := hs
  simp only [writeBuf, FuseBufvec.Plain.size hplain]
  by_cases hd : bufv.data = []
  · rw [hd, overwrite, if_pos rfl]
    exact ⟨f, rfl, h⟩
  have hlen : bufv.data.length ≠ 0 := fun h0 => hd (length_eq_zero_iff.mp h0)
  rw [if_neg hlen]
  by_cases hle : off + bufv.data.length ≤ f.size
  · have hla : off + bufv.data.length ≤ a.length := h.size ▸ hle
    obtain ⟨f', hc, hr⟩ := copyBuffers_refines h (ne_nil_of_le hd hla) hplain.1
      (by rw [hplain.2]; exact hla)
    rw [hplain.2] at hr
    rw [if_neg (Nat.not_lt.mpr hle), overwrite_of_le hla]
    simp only [hc]
    exact ⟨f', rfl, hr⟩
  · have hlt : f.size < off + bufv.data.length := Nat.not_le.mp hle
    have hg := (hroom.resolve_left hd).resolve_left hle
    obtain ⟨f1, hadj, hr1⟩ := h.grow hg hlt
    have hfit : off + (bufv.seen.flatMap FuseBuf.contents).length ≤
        (resize 0 a (off + bufv.data.length)).length := by
      refine Nat.le_of_eq ?_
      rw [hplain.2, length_resize]
    obtain ⟨f', hc, hr⟩ := copyBuffers_refines hr1 (resize_ne_nil 0 a (by omega)) hplain.1 hfit
    rw [hplain.2] at hr
    rw [if_pos hlt, hadj, overwrite_of_lt hd (h.size ▸ hlt)]
    simp only [hc]
    exact ⟨f', rfl, hr⟩

theorem setSize_refines (h : f.Represents a) (hs : f.Supported (.setSize n)) :
    ∃ f', f.setSize n = some (.attr n, f') ∧ f'.Represents (resize 0 a n) := by
  rw [setSize]
  by_cases hn : f.size = n
  · rw [if_pos hn, ← hn, h.size, resize_length]
    exact ⟨f, rfl, h⟩
  rw [if_neg hn]
  by_cases h0 : n = 0
  · subst h0
    obtain ⟨f', hadj, hr⟩ := h.zero hn
    rw [hadj, resize_zero]
    exact ⟨f', by simp only [hr.size, length_nil], hr⟩
  · obtain ⟨hst, hg⟩ := (hs.resolve_left (Ne.symm hn)).resolve_left h0
    obtain ⟨f', hadj, rfl, hr⟩ := h.adjust hst hg (Ne.symm hn) h0
    rw [hadj]
    exact ⟨f', rfl, hr⟩

theorem truncate_refines (h : f.Represents a) :
    ∃ f', f.truncate = some (.opened, f') ∧ f'.Represents [] := by
  rw [truncate]
  by_cases hpos : f.size > 0
  · obtain ⟨f', hadj, hr⟩ := h.zero (Nat.ne_of_gt hpos)
    rw [if_pos hpos, hadj]
    exact ⟨f', rfl, hr⟩
  · have ha : a = [] := length_eq_zero_iff.mp (by have := h.size; omega)
    rw [if_neg hpos]
    exact ⟨f, rfl, ha ▸ h⟩

theorem read_refines (h : f.Represents a)
    (off size : Nat) : f.read off size = some (.data (slice a off size), f) := by
  rw [read, h.size]
  split
  · next h0 =>
    have : slice a off size = [] := by
      rw [slice, ← length_eq_zero_iff, length_take, length_drop]
      omega
    rw [this]
  next h0 =>
  have hout : (if size + off > a.length then a.length - off else size) =
      min size (a.length - off) := by
    split <;> omega
  have hslice : slice a off (min size (a.length - off)) =
      slice a off size := by
    rw [slice, slice, take_eq_take_iff, length_drop]
    omega
  simp only [hout]
  split
  · next hz => rw [← hslice, hz, slice, take_zero]
  · next hz => rw [h.load hz (by omega), hslice]

theorem step_refines (f : File) (a : List UInt8) (r : FileRequest) (h : f.Represents a)
    (hs : f.Supported r) : ∃ ev f' a', f.step r = some (ev, f') ∧
      Contents.step a r = some (ev, a') ∧ f'.Represents a' := by
  cases r with
  | write off buf =>
    obtain ⟨f', hw, hr⟩ := write_refines h hs
    exact ⟨_, f', _, by simp only [step, hw], rfl, hr⟩
  | writeBuf off bufv =>
    obtain ⟨f', hw, hr⟩ := writeBuf_refines h hs
    exact ⟨_, f', _, by simp only [step, hw], rfl, hr⟩
  | setSize n =>
    obtain ⟨f', hw, hr⟩ := setSize_refines h hs
    exact ⟨_, f', _, by simp only [step, hw], rfl, hr⟩
  | truncate =>
    obtain ⟨f', hw, hr⟩ := truncate_refines h
    exact ⟨_, f', _, by simp only [step, hw], rfl, hr⟩
  | read off size =>
    exact ⟨_, f, _, by simp only [step, read_refines h], rfl, h⟩

/-- Over any sequence of supported requests a new file gives the replies of a
sequence of bytes, and ends up standing for it. -/
theorem file_refines_contents {storageDir : Bool} {rs : List FileRequest}
    (h : Along step Supported (create storageDir) rs) :
    ∃ tr f a, run step (create storageDir) rs = some (tr, f) ∧
      run Contents.step [] rs = some (tr, a) ∧ f.Represents a :=
  run_simulates step_refines (represents_create storageDir) h

/-- A write of two bytes to an empty file, one of them written over. -/
theorem file_refines_contents_overwrite : ∃ tr f a, run step (create false)
      [.writeBuf 1 ⟨[⟨.mem [1, 2], false, 0⟩], 0, 0⟩, .write 2 [3], .read 0 9] = some (tr, f) ∧
    run Contents.step [] [.writeBuf 1 ⟨[⟨.mem [1, 2], false, 0⟩], 0, 0⟩, .write 2 [3], .read 0 9] =
        some (tr, a) ∧ f.Represents a :=
  file_refines_contents (along_of_decide (by decide))

/-- Three ways to lose: a byte written past the end of a file is not stored,
and reading it goes through a null pointer; a new size has no effect without
a storage directory; and with one, bytes that were cut off come back. -/
theorem file_loses_bytes : ((run step (create true) [.write 0 [97]]).map Prod.snd =
        some ⟨1, .null, some []⟩ ∧
      run step (create true) [.write 0 [97], .read 0 1] = none ∧
      (run Contents.step [] [.write 0 [97], .read 0 1]).map Prod.fst =
        some [.written 1, .data [97]]) ∧
    ((run step (create false) [.setSize 4, .read 0 4]).map Prod.fst = some [.attr 0, .data []] ∧
      (run Contents.step [] [.setSize 4, .read 0 4]).map Prod.fst =
        some [.attr 4, .data [0, 0, 0, 0]]) ∧
    (run step (create true) [.setSize 1, .write 0 [97], .setSize 0, .setSize 1, .read 0 1]).map
        Prod.fst =
        some [.attr 1, .written 1, .attr 0, .attr 1, .data [97]] ∧
      (run Contents.step [] [.setSize 1, .write 0 [97], .setSize 0, .setSize 1, .read 0 1]).map
        Prod.fst =
        some [.attr 1, .written 1, .attr 0, .attr 1, .data [0]] := by
  decide

end File

end Finesse.Bitbucket
