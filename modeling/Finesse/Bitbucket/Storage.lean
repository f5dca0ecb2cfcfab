import Finesse.Bitbucket.File
import Finesse.Errno

/-!
# The storage of a file and calls that fail

`BitbucketAdjustFileStorage` gives a file another length, and here each of the
calls it makes may fail. A file has to end up with the new length, its bytes and
zeros, or stay as it was.

Most ways through the function are wrong: a first block from `malloc` does not
move the size, and a block that `realloc` returns is freed again.

The second part compares the two handlers that write.
-/

namespace Finesse.Bitbucket

open Buffer List Option

/-- How the calls to the system end: whether `malloc`, `realloc` and `ftruncate`
succeed, and the error of `open` and `mmap`, which is zero if there is none. -/
structure StorageCalls where
  malloc : Bool
  realloc : Bool
  ftruncate : Bool
  openError : Int
  mmapError : Int
deriving DecidableEq, Repr

def StorageCalls.succeed : StorageCalls := ⟨true, true, true, 0, 0⟩

namespace File

/-- `BitbucketAdjustFileStorage`: the status and the file. `MAP_FAILED` is a
pointer to nothing. -/
def adjustFileStorage (c : StorageCalls) (f : File) (newLength : Nat) : Option (Int × File) :=
  if newLength = f.size then some (0, f)
  else
    match f.map, f.storage with
    | .null, none =>
      if newLength = 0 then some (0, f)
      else if c.malloc then
        some (0, { f with map := .block (replicate newLength 0) })
      else some (ENOSPC, f)
    | .null, some bytes =>
      if newLength = 0 then some (0, f)
      else if c.openError ≠ 0 then some (c.openError, f)
      -- `assert(0)`
      else if c.ftruncate = false then none
      -- the map is set before it is looked at
      else if c.mmapError ≠ 0 then
        some (c.mmapError, { f with map := .dangling, storage := some (resize 0 bytes newLength) })
      else
        some (0, ⟨newLength, .mapped newLength, some (resize 0 bytes newLength)⟩)
    | .dangling, none => none
    | _, none =>
      if newLength = 0 then some (0, ⟨0, .null, none⟩)
      -- the new block is freed at the end
      else if c.realloc then some (0, { f with map := .dangling })
      else some (ENOSPC, f)
    | _, some bytes =>
      if newLength = 0 then f.munmap.map fun _ => (0, ⟨0, .null, some bytes⟩)
      -- these are assertions
      else if c.openError ≠ 0 ∨ c.ftruncate = false ∨ c.mmapError ≠ 0 then none
      else f.munmap.map fun _ =>
        (0, ⟨newLength, .mapped newLength, some (resize 0 bytes newLength)⟩)

/-- If no call fails this is the function of the model of the files. -/
theorem adjustFileStorage_succeed (f : File) (n : Nat) : f.adjustFileStorage .succeed n =
      (f.bitbucketAdjustFileStorage n).map fun f' => (0, f') := by
  rw [adjustFileStorage, bitbucketAdjustFileStorage]
  by_cases hn : n = f.size
  · rw [if_pos hn, if_pos hn]
    rfl
  rw [if_neg hn, if_neg hn]
  cases f.map <;> cases f.storage <;> by_cases h0 : n = 0 <;>
    cases f.munmap <;> simp [h0, StorageCalls.succeed]

/-- What a call should leave of a file with the bytes `a`: with the status zero
the new length, the bytes there is room for and zeros, else what there was. -/
def Adjusted (f : File) (a : List UInt8) (n : Nat) (status : Int) (f' : File) : Prop :=
  if status = 0 then
    f'.size = n ∧ (f'.map = .null ↔ n = 0) ∧ (n ≠ 0 → f'.load 0 n = some (resize 0 a n))
  else f'.map = f.map ∧ f'.size = f.size ∧ f'.Represents a

def AdjustRight (c : StorageCalls) (f : File) (a : List UInt8) (n : Nat) : Prop :=
  ∃ status f', f.adjustFileStorage c n = some (status, f') ∧ f.Adjusted a n status f'

/-- The ways through the function that are right. -/
def Adjustable (c : StorageCalls) (f : File) (n : Nat) : Prop :=
  n = f.size ∨ n = 0 ∨ match f.map, f.storage with
    | .null, none => c.malloc = false
    | .null, some bytes => c.openError ≠ 0 ∨
        c.ftruncate = true ∧ c.mmapError = 0 ∧ ∀ b ∈ bytes.take n, b = 0
    | _, none => c.realloc = false
    | _, some _ => c.openError = 0 ∧ c.ftruncate = true ∧ c.mmapError = 0

section Adjust

variable {c : StorageCalls} {f f' : File} {a bytes : List UInt8} {n : Nat} {status : Int}

theorem adjustRight_iff_adjusted (h : f.adjustFileStorage c n = some (status, f')) :
    f.AdjustRight c a n ↔ f.Adjusted a n status f' := by
  constructor
  · rintro ⟨status', f1, h', hf⟩
    obtain ⟨rfl, rfl⟩ := Prod.mk.inj (mem_unique h h')
    exact hf
  · exact fun hf => ⟨status, f', h, hf⟩

theorem not_adjustRight (h : f.adjustFileStorage c n = none) : ¬f.AdjustRight c a n := by
  rintro ⟨status, f', h', -⟩
  rw [h] at h'
  cases h'

theorem adjustRight_of_failed (hr : f.Represents a) (hs : status ≠ 0)
    (h : f.adjustFileStorage c n = some (status, f)) : f.AdjustRight c a n :=
  ⟨status, f, h, by rw [Adjusted, if_neg hs]; exact ⟨rfl, rfl, hr⟩⟩

theorem adjusted_mapped (hn : n ≠ 0) : f.Adjusted a n 0 ⟨n, .mapped n, some (resize 0 bytes n)⟩ ↔
      resize 0 bytes n = resize 0 a n := by
  have hle : 0 + n ≤ min n (resize 0 bytes n).length := by
    rw [length_resize]
    omega
  have hload : load ⟨n, .mapped n, some (resize 0 bytes n)⟩ 0 n = some (resize 0 bytes n) := by
    refine (if_pos hle).trans (congrArg some ?_)
    rw [slice, drop_zero, take_of_length_le (Nat.le_of_eq (length_resize 0 bytes n))]
  rw [Adjusted, if_pos rfl, hload]
  constructor
  · rintro ⟨-, -, h⟩
    exact some.inj (h hn)
  · exact fun h => ⟨rfl, iff_of_false (by simp) hn, fun _ => congrArg some h⟩

theorem adjustRight_same (h : f.Represents a) : f.AdjustRight c a f.size := by
  refine ⟨0, f, if_pos rfl, ?_⟩
  rw [Adjusted, if_pos rfl]
  refine ⟨rfl, ?_, fun hne => ?_⟩
  · cases h with
    | empty => exact iff_of_true rfl rfl
    | block ha => exact iff_of_false nofun fun h0 => ha (length_eq_zero_iff.mp h0)
    | mapped ha => exact iff_of_false nofun fun h0 => ha (length_eq_zero_iff.mp h0)
  · have hle : 0 + f.size ≤ a.length := by
      have := h.size
      omega
    rw [h.load hne hle, h.size, resize_length, slice, drop_zero, take_length]

theorem adjustRight_zero (h : f.Represents a) (hne : 0 ≠ f.size) : f.AdjustRight c a 0 := by
  obtain ⟨f', hf, hs, hm⟩ : ∃ f', f.adjustFileStorage c 0 = some (0, f') ∧
      f'.size = 0 ∧ f'.map = .null := by
    rw [adjustFileStorage, if_neg hne]
    cases h with
    | empty => exact absurd rfl hne
    | block => exact ⟨_, rfl, rfl, rfl⟩
    | mapped => exact ⟨_, congrArg (Option.map _) (if_neg (Ne.symm hne)), rfl, rfl⟩
  refine ⟨0, f', hf, ?_⟩
  rw [Adjusted, if_pos rfl]
  exact ⟨hs, iff_of_true hm rfl, absurd rfl⟩

theorem adjustRight_malloc (hn : n ≠ 0) :
    AdjustRight c ⟨0, .null, none⟩ [] n ↔ c.malloc = false := by
  cases hm : c.malloc with
  | false =>
    have heq : adjustFileStorage c ⟨0, .null, none⟩ n = some (ENOSPC, ⟨0, .null, none⟩) := by
      simp [adjustFileStorage, hn, hm]
    exact iff_of_true (adjustRight_of_failed (.empty none) (by decide) heq) rfl
  | true =>
    have heq : adjustFileStorage c ⟨0, .null, none⟩ n =
        some (0, ⟨0, .block (replicate n 0), none⟩) := by
      simp [adjustFileStorage, hn, hm]
    rw [adjustRight_iff_adjusted heq]
    refine iff_of_false (fun h => ?_) nofun
    -- the size is still zero
    exact hn ((if_pos rfl).mp h).1.symm

theorem adjustRight_realloc (ha : a ≠ []) (hne : n ≠ a.length) (hn : n ≠ 0) :
    AdjustRight c ⟨a.length, .block a, none⟩ a n ↔ c.realloc = false := by
  cases hm : c.realloc with
  | false =>
    have heq : adjustFileStorage c ⟨a.length, .block a, none⟩ n =
        some (ENOSPC, ⟨a.length, .block a, none⟩) := by
      simp [adjustFileStorage, hne, hn, hm]
    exact iff_of_true (adjustRight_of_failed (.block ha) (by decide) heq) rfl
  | true =>
    have heq : adjustFileStorage c ⟨a.length, .block a, none⟩ n =
        some (0, ⟨a.length, .dangling, none⟩) := by
      simp [adjustFileStorage, hne, hn, hm]
    rw [adjustRight_iff_adjusted heq]
    exact iff_of_false (fun h => hne ((if_pos rfl).mp h).1.symm) nofun

theorem adjustRight_map (hn : n ≠ 0) : AdjustRight c ⟨0, .null, some bytes⟩ [] n ↔ c.openError ≠ 0 ∨
      c.ftruncate = true ∧ c.mmapError = 0 ∧ ∀ b ∈ bytes.take n, b = 0 := by
  by_cases ho : c.openError = 0
  · simp only [ho, ne_eq, not_true_eq_false, false_or]
    cases ht : c.ftruncate with
    | false =>
      refine iff_of_false (not_adjustRight ?_) (fun h => nomatch h.1)
      simp [adjustFileStorage, hn, ho, ht]
    | true =>
      by_cases hm : c.mmapError = 0
      · have heq : adjustFileStorage c ⟨0, .null, some bytes⟩ n =
            some (0, ⟨n, .mapped n, some (resize 0 bytes n)⟩) := by
          simp [adjustFileStorage, hn, ho, ht, hm]
        rw [adjustRight_iff_adjusted heq, adjusted_mapped hn]
        exact (resize_eq_blank_iff ..).trans ⟨fun h => ⟨rfl, hm, h⟩, fun h => h.2.2⟩
      · have heq : adjustFileStorage c ⟨0, .null, some bytes⟩ n = some (c.mmapError,
            ⟨0, .dangling, some (resize 0 bytes n)⟩) := by
          simp [adjustFileStorage, hn, ho, ht, hm]
        rw [adjustRight_iff_adjusted heq]
        exact iff_of_false (fun h => nomatch ((if_neg hm).mp h).1) fun h => hm h.2.1
  · refine iff_of_true (adjustRight_of_failed (.empty _) ho ?_) (.inl ho)
    simp [adjustFileStorage, hn, ho]

theorem adjustRight_remap (ha : a ≠ []) (hne : n ≠ a.length) (hn : n ≠ 0) :
    AdjustRight c ⟨a.length, .mapped a.length, some a⟩ a n ↔
      c.openError = 0 ∧ c.ftruncate = true ∧ c.mmapError = 0 := by
  by_cases hc : c.openError = 0 ∧ c.ftruncate = true ∧ c.mmapError = 0
  · obtain ⟨ho, ht, hm⟩ := hc
    have heq : adjustFileStorage c ⟨a.length, .mapped a.length, some a⟩ n =
        some (0, ⟨n, .mapped n, some (resize 0 a n)⟩) := by
      simp [adjustFileStorage, munmap, hne, hn, ho, ht, hm, ha]
    rw [adjustRight_iff_adjusted heq, adjusted_mapped hn]
    exact iff_of_true rfl ⟨ho, ht, hm⟩
  · have hfail : c.openError ≠ 0 ∨ c.ftruncate = false ∨ c.mmapError ≠ 0 := by
      rcases not_and_or.mp hc with h | h
      · exact .inl h
      · exact .inr ((not_and_or.mp h).imp Bool.eq_false_iff.mpr id)
    refine iff_of_false (not_adjustRight ?_) hc
    simp only [adjustFileStorage, hne, hn, if_false, if_pos hfail]

/-- A call changes the length of a file as it should, or fails and changes
nothing, for exactly the files and outcomes of `Adjustable`. -/
theorem adjust_right_iff (c : StorageCalls) (n : Nat) (h : f.Represents a) :
    f.AdjustRight c a n ↔ f.Adjustable c n := by
  by_cases hsame : n = f.size
  · subst hsame
    exact iff_of_true (adjustRight_same h) (.inl rfl)
  by_cases hn : n = 0
  · subst hn
    exact iff_of_true (adjustRight_zero h hsame) (.inr (.inl rfl))
  rw [Adjustable, or_iff_right hsame, or_iff_right hn]
  cases h with
  | empty storage =>
    cases storage with
    | none => exact adjustRight_malloc hn
    | some bytes => exact adjustRight_map hn
  | block ha => exact adjustRight_realloc ha hsame hn
  | mapped ha => exact adjustRight_remap ha hsame hn

end Adjust

/-- A file in the storage directory gets longer. -/
theorem adjust_right_iff_grown : (⟨1, .mapped 1, some [97]⟩ : File).Represents [97] ∧
    ((⟨1, .mapped 1, some [97]⟩ : File).AdjustRight .succeed [97] 3 ↔
      (⟨1, .mapped 1, some [97]⟩ : File).Adjustable .succeed 3) :=
  ⟨.mapped (cons_ne_nil 97 []), adjust_right_iff .succeed 3 (.mapped (cons_ne_nil 97 []))⟩

/-- Four ways to go wrong. A new file without storage gets a block of four
bytes and keeps the size zero. A block is made longer: the file is left with the
old size and a freed block. A file is cut to nothing and made longer again: its
old byte is back. And `mmap` fails, which leaves a file that cannot be read. -/
theorem adjust_storage_wrong :
    (create false).adjustFileStorage .succeed 4 = some (0, ⟨0, .block [0, 0, 0, 0], none⟩) ∧
    adjustFileStorage .succeed ⟨1, .block [97], none⟩ 2 = some (0, ⟨1, .dangling, none⟩) ∧
    adjustFileStorage .succeed ⟨1, .mapped 1, some [97]⟩ 0 = some (0, ⟨0, .null, some [97]⟩) ∧
    adjustFileStorage .succeed ⟨0, .null, some [97]⟩ 1 = some (0, ⟨1, .mapped 1, some [97]⟩) ∧
    adjustFileStorage ⟨true, true, true, 0, ENOMEM⟩ (create true) 1 =
      some (ENOMEM, ⟨0, .dangling, some [0]⟩) ∧
    ¬AdjustRight .succeed (create false) [] 4 ∧
    ¬AdjustRight .succeed ⟨1, .block [97], none⟩ [97] 2 ∧
    ¬AdjustRight .succeed ⟨0, .null, some [97]⟩ [] 1 ∧
    ¬AdjustRight ⟨true, true, true, 0, ENOMEM⟩ (create true) [] 1 := by
  refine ⟨by decide, by decide, by decide, by decide, by decide, ?_, ?_, ?_, ?_⟩
  · exact fun h => absurd ((adjustRight_malloc (by decide)).mp h) (by decide)
  · have hiff := @adjustRight_realloc .succeed [97] 2 (by decide) (by decide) (by decide)
    exact fun h => absurd (hiff.mp h) (by decide)
  · exact fun h => absurd ((adjustRight_map (by decide)).mp h) (by decide)
  · exact fun h => absurd ((adjustRight_map (by decide)).mp h) (by decide)

end File

/-! ## The two handlers that write

The write_buf handler takes the buffers up to the current one for those from it
on, and never looks at the offset in the current one. The write handler does not
store what it writes past the end. -/

/-- A segment in memory: neither of the flags about a descriptor is set. -/
def FuseBuf.Memory (b : FuseBuf) : Prop :=
  (∃ bytes, b.source = .mem bytes) ∧ b.fdSeek = false

namespace File

/-- A write_buf does to a file, and replies, what a write of the remaining bytes
does. -/
def WriteBufRight (f : File) (off : Nat) (v : FuseBufvec) : Prop :=
  ∃ reply f', f.writeBuf off v = some (reply, f') ∧ f.write off v.data = some (reply, f')

/-- The buffers that are looked at hold the remaining bytes, and these fit in
the file. -/
def BuffersFit (f : File) (off : Nat) (v : FuseBufvec) : Prop :=
  v.seen.flatMap FuseBuf.contents = v.data ∧ (v.data = [] ∨ off + v.data.length ≤ f.size)

section Writes

variable {f f' : File} {a b d e : List UInt8} {v : FuseBufvec} {off n : Nat} {reply : FileReply}

theorem direct_of_memory (hm : ∀ b ∈ v.buf, b.Memory) : ∀ b ∈ v.seen, b.Direct := by
  intro b hb
  obtain ⟨⟨bytes, hs⟩, hf⟩ := hm b (mem_of_mem_take hb)
  rw [FuseBuf.Direct, hs]
  exact hf

theorem Represents.length_of_map (h : f.Represents a) (h' : f'.Represents b)
    (hm : f'.map = f.map) : b.length = a.length := by
  cases h with
  | empty => cases h' <;> first | rfl | cases hm
  | block => cases h' <;> cases hm; rfl
  | mapped => cases h' <;> first | exact Map.mapped.inj hm | cases hm

theorem Represents.store_inj (h : f.Represents a) (hd : off + d.length ≤ a.length)
    (hlen : e.length = d.length) (hst : f.store off d = f.store off e) (ha : a ≠ []) : d = e := by
  have he : off + e.length ≤ a.length := hlen ▸ hd
  have hsplice : splice a off d = splice a off e := by
    cases h with
    | empty => exact absurd rfl ha
    | block =>
      have := (if_pos hd).symm.trans (hst.trans (if_pos he))
      simpa using this
    | mapped =>
      rw [← Nat.min_self a.length] at hd he
      have := (if_pos hd).symm.trans (hst.trans (if_pos he))
      simpa using this
  rw [splice, splice, hlen, append_left_inj, append_right_inj] at hsplice
  exact hsplice

/-- A file that gets longer has a block that was freed, or stands for as many
bytes as it should. -/
theorem Represents.grown (h : f.Represents a) (hlt : f.size < n)
    (hadj : bitbucketAdjustFileStorage f n = some f') :
    f'.map = .dangling ∨ ∃ b, b.length = n ∧ Represents { f' with size := n } b := by
  have hmapped (l : List UInt8) : ∃ b : List UInt8, b.length = n ∧
      Represents ⟨n, .mapped n, some (resize 0 l n)⟩ b := by
    have := Represents.mapped (resize_ne_nil 0 l (Nat.ne_of_gt (Nat.zero_lt_of_lt hlt)))
    rw [length_resize] at this
    exact ⟨_, length_resize 0 l n, this⟩
  have hn : n ≠ 0 := by omega
  rw [bitbucketAdjustFileStorage, if_neg (by omega)] at hadj
  cases h with
  | empty storage =>
    cases storage with
    | none =>
      cases (if_neg hn).symm.trans hadj
      have := Represents.block (resize_ne_nil 0 [] hn)
      rw [length_resize, resize_nil] at this
      exact .inr ⟨_, length_replicate, this⟩
    | some bytes =>
      cases (if_neg hn).symm.trans hadj
      exact .inr (hmapped bytes)
  | block =>
    cases (if_neg hn).symm.trans hadj
    exact .inl rfl
  | mapped ha =>
    simp only [munmap, if_neg (mt length_eq_zero_iff.mp ha), if_neg hn] at hadj
    cases hadj
    exact .inr (hmapped a)

theorem write_reply (h : f.write off d = some (reply, f')) : reply = .written d.length := by
  rw [write] at h
  split at h
  · next hd => cases h; rw [hd]; rfl
  split at h
  all_goals
    split at h
    · cases h
    · cases h; rfl

theorem write_past (hd : d ≠ []) (hlt : f.size < off + d.length) :
    f.write off d = some (.written d.length, { f with size := off + d.length }) := by
  rw [write, if_neg hd, if_pos hlt, bitbucketAdjustFileStorage, if_pos rfl]

theorem copyBuffers_dangling {bs : List FuseBuf} (hm : f.map = .dangling) (hb : ∀ b ∈ bs, b.Direct)
    (hne : bs.flatMap FuseBuf.contents ≠ [])
    (hle : off + (bs.flatMap FuseBuf.contents).length ≤ f.size) : copyBuffers f off bs = none := by
  cases bs with
  | nil => exact absurd rfl hne
  | cons b bs =>
    rw [flatMap_cons, length_append] at hle
    rw [copyBuffers_cons (hb b mem_cons_self) (by omega), File.store, hm]

theorem writeBuf_of_nil (hb : ∀ b ∈ v.seen, b.Direct) (hs : v.seen.flatMap FuseBuf.contents = []) :
    f.writeBuf off v = some (.written 0, f) := by
  have hsize := size_of_direct hb
  rw [hs] at hsize
  exact if_pos hsize

theorem writeBuf_of_le (h : f.Represents a) (hb : ∀ b ∈ v.seen, b.Direct)
    (hs : v.seen.flatMap FuseBuf.contents = d) (hd : d ≠ []) (hle : off + d.length ≤ a.length) :
    ∃ f', f.store off d = some f' ∧ f.writeBuf off v = some (.written d.length, f') := by
  subst hs
  have hcopy := copyBuffers_eq_store h (ne_nil_of_le hd hle) hb hle
  obtain ⟨f', hst, -, -⟩ := h.store (ne_nil_of_le hd hle) hle
  refine ⟨f', hst, ?_⟩
  simp only [writeBuf, size_of_direct hb, if_neg (mt length_eq_zero_iff.mp hd)]
  rw [if_neg (by rw [h.size]; omega)]
  simp only [hcopy, hst]

theorem writeBuf_past (h : f.Represents a) (hb : ∀ b ∈ v.seen, b.Direct)
    (hs : v.seen.flatMap FuseBuf.contents = d) (hd : d ≠ [])
    (hlt : a.length < off + d.length) (hw : f.writeBuf off v = some (reply, f')) :
    reply = .written d.length ∧ ∃ b, b.length = off + d.length ∧ f'.Represents b := by
  subst hs
  rw [← h.size] at hlt
  simp only [writeBuf, size_of_direct hb, if_neg (mt length_eq_zero_iff.mp hd), if_pos hlt] at hw
  cases hadj : bitbucketAdjustFileStorage f (off + (v.seen.flatMap FuseBuf.contents).length) with
  | none => simp only [hadj] at hw; cases hw
  | some f1 =>
    simp only [hadj] at hw
    rcases h.grown hlt hadj with hmap | ⟨b, hlen, hr⟩
    · -- the first copy goes to a freed block
      have hfreed : copyBuffers
          { f1 with size := off + (v.seen.flatMap FuseBuf.contents).length } off v.seen =
          none := copyBuffers_dangling hmap hb hd (Nat.le_refl _)
      simp only [hfreed] at hw
      cases hw
    · have hne : b ≠ [] := ne_nil_of_length_pos (by omega)
      obtain ⟨f2, hc, hr2⟩ := copyBuffers_refines hr hne hb (Nat.le_of_eq hlen.symm)
      simp only [hc] at hw
      cases hw
      exact ⟨rfl, _, (length_splice (Nat.le_of_eq hlen.symm)).trans hlen, hr2⟩

/-- Memory segments are written as one write would write them exactly if those up
to the current one are the bytes that remain, and the file does not get longer. -/
theorem write_buf_right_iff (h : f.Represents a) (hm : ∀ b ∈ v.buf, b.Memory) :
    f.WriteBufRight off v ↔ f.BuffersFit off v := by
  have hb := direct_of_memory hm
  rw [BuffersFit, h.size]
  generalize hs : v.seen.flatMap FuseBuf.contents = s
  constructor
  · rintro ⟨reply, f', hw, hw'⟩
    have hreply := write_reply hw'
    by_cases hnil : s = []
    · rw [writeBuf_of_nil hb (hs.trans hnil)] at hw
      obtain ⟨h0, -⟩ := Prod.mk.inj (some.inj hw)
      have hdata : v.data = [] :=
        length_eq_zero_iff.mp (FileReply.written.inj (h0.trans hreply)).symm
      exact ⟨hnil.trans hdata.symm, .inl hdata⟩
    by_cases hle : off + s.length ≤ a.length
    · obtain ⟨f1, hst, hwb⟩ := writeBuf_of_le h hb hs hnil hle
      obtain ⟨rfl, rfl⟩ := Prod.mk.inj (mem_unique hwb hw)
      have hlen : v.data.length = s.length := (FileReply.written.inj hreply).symm
      have hne : v.data ≠ [] := fun h0 => hnil (by simpa [h0] using hlen.symm)
      rw [write, if_neg hne, if_neg (by rw [h.size]; omega)] at hw'
      cases hst' : f.store off v.data with
      | none => rw [hst'] at hw'; cases hw'
      | some f2 =>
        rw [hst'] at hw'
        obtain ⟨-, rfl⟩ := Prod.mk.inj (some.inj hw')
        exact ⟨h.store_inj hle hlen (hst.trans hst'.symm) (ne_nil_of_le hnil hle), .inr (by omega)⟩
    · -- one of the two changes the map, the other one does not
      obtain ⟨rfl, b, hlenb, hr⟩ := writeBuf_past h hb hs hnil (Nat.lt_of_not_le hle) hw
      have hlen : v.data.length = s.length := (FileReply.written.inj hreply).symm
      have hne : v.data ≠ [] := fun h0 => hnil (by simpa [h0] using hlen.symm)
      rw [write_past hne (by rw [h.size]; omega)] at hw'
      obtain ⟨-, rfl⟩ := Prod.mk.inj (some.inj hw')
      have := h.length_of_map hr rfl
      omega
  · rintro ⟨rfl, hroom⟩
    by_cases hnil : v.data = []
    · exact ⟨.written 0, f, writeBuf_of_nil hb (hs.trans hnil), if_pos hnil⟩
    have hle := hroom.resolve_left hnil
    obtain ⟨f', hst, hwb⟩ := writeBuf_of_le h hb hs hnil hle
    refine ⟨_, f', hwb, ?_⟩
    rw [write, if_neg hnil, if_neg (by rw [h.size]; omega), hst]

end Writes

/-- Two segments from the second one's start, where the first one is empty. -/
theorem write_buf_right_iff_two : WriteBufRight ⟨3, .block [1, 2, 3], none⟩ 1
      ⟨[⟨.mem [], false, 0⟩, ⟨.mem [7, 8], false, 0⟩], 1, 0⟩ ↔
    BuffersFit ⟨3, .block [1, 2, 3], none⟩ 1
      ⟨[⟨.mem [], false, 0⟩, ⟨.mem [7, 8], false, 0⟩], 1, 0⟩ :=
  write_buf_right_iff (.block (cons_ne_nil 1 [2, 3])) (by simp [FuseBuf.Memory])

/-- From the second of two segments on, one byte remains; two are written, among
them the one before. From the first byte of a segment on, both its bytes are
written. And with two segments from the start, only the first is. -/
theorem write_buf_takes_wrong_segments : (writeBuf ⟨3, .block [1, 2, 3], none⟩ 0
        ⟨[⟨.mem [7], false, 0⟩, ⟨.mem [8], false, 0⟩], 1, 0⟩ =
      some (.written 2, ⟨3, .block [7, 8, 3], none⟩) ∧
    write ⟨3, .block [1, 2, 3], none⟩ 0 [8] = some (.written 1, ⟨3, .block [8, 2, 3], none⟩)) ∧
    (writeBuf ⟨3, .block [1, 2, 3], none⟩ 0 ⟨[⟨.mem [7, 8], false, 0⟩], 0, 1⟩ =
      some (.written 2, ⟨3, .block [7, 8, 3], none⟩) ∧
    write ⟨3, .block [1, 2, 3], none⟩ 0 [8] = some (.written 1, ⟨3, .block [8, 2, 3], none⟩)) ∧
    writeBuf ⟨3, .block [1, 2, 3], none⟩ 0 ⟨[⟨.mem [7], false, 0⟩, ⟨.mem [8], false, 0⟩], 0, 0⟩ =
      some (.written 1, ⟨3, .block [7, 2, 3], none⟩) ∧
    write ⟨3, .block [1, 2, 3], none⟩ 0 [7, 8] = some (.written 2, ⟨3, .block [7, 8, 3], none⟩) ∧
    ¬WriteBufRight ⟨3, .block [1, 2, 3], none⟩ 0
      ⟨[⟨.mem [7], false, 0⟩, ⟨.mem [8], false, 0⟩], 1, 0⟩ := by
  refine ⟨by decide, by decide, by decide, by decide, ?_⟩
  rintro ⟨reply, f', hw, hw'⟩
  exact absurd (hw.trans hw'.symm) (by decide)

end File

end Finesse.Bitbucket
