import Finesse.Lib.Text
import Finesse.Utils.Timespec

/-!
# Formatted statistics

Three functions turn statistics into one text. They measure every line, allocate
the lengths rounded up to multiples of eight, and print the lines one after
another. For the header of the inode table they allocate the size of a pointer,
and for the end of the text nothing, so both have to fit into what was rounded up.
The headers of the call data are not printed at all.
-/

namespace Finesse.Utils

open Memory List

/-- `(n + 7) & ~7`. -/
def roundUp (n : Nat) : Nat := (n + 7) / 8 * 8

/-- The loop that prints the lines, with its two assertions. -/
def writeLines (required : Nat) : List (List UInt8) → Mem → Nat → Option Mem
  | [], m, _ => some m
  | l :: ls, m, used =>
    if l.length ≤ required - used ∧ used + l.length ≤ required then
      writeLines required ls (snprintf m used (required - used) l) (used + l.length)
    else none

/-- The space for the lines, as they were measured. -/
def lineSpace (lines : List (List UInt8)) : Nat := (lines.map fun l => roundUp l.length).sum

/-- The space for a header: `sizeof` is that of the pointer to it. -/
def headerSpace : Nat := (8 + 8) / 8 * 8

/-- The memory that a formatter returns, and its size. -/
abbrev Formatted := Option (Mem × Nat)

/-- No assertion has failed, and the memory holds the whole text and its end. -/
def Formatted.Whole (f : Formatted) (text : List UInt8) : Prop :=
  ∃ m size, f = some (m, size) ∧ stringAt m 0 size = some text

/-! ## The inode table -/

structure BucketData where
  maxEntries : BitVec 64
  cacheHits : BitVec 64
  lookups : BitVec 64
  failed : BitVec 64

/-- `%lu`, or with a width. -/
def unsigned (width : Nat) (x : BitVec 64) : List UInt8 := (digits 10 x.toNat).leftpad width 32

def formatInodeTableData (csv : Bool) (d : BucketData) : List UInt8 :=
  if csv then unsigned 0 d.maxEntries ++ ascii ", ".toList ++ unsigned 0 d.cacheHits ++
    ascii ", ".toList ++ unsigned 0 d.lookups ++ ascii ", ".toList ++ unsigned 0 d.failed ++
    ascii "\n".toList
  else unsigned 10 d.maxEntries ++ ascii " ".toList ++ unsigned 10 d.cacheHits ++
    ascii " ".toList ++ unsigned 10 d.lookups ++ ascii " ".toList ++ unsigned 10 d.failed ++
    ascii "\n".toList

def inodeTableHeader (csv : Bool) : List UInt8 :=
  ascii (if csv then "MaxEntries, CacheHits, Lookups,Failed"
    else "Max        Cache Hit  Lookup    Failure").toList

/-- `BitbucketFormattedInodeTableStatistics`, with the memory that was allocated. -/
def bitbucketFormattedInodeTableStatistics (csv : Bool) (data : List BucketData) (m : Mem) :
    Formatted :=
  let header := inodeTableHeader csv
  let lines := data.map (formatInodeTableData csv)
  let required := headerSpace + lineSpace lines
  if header.length < required then
    (writeLines required lines (store m 0 header) header.length).map (·, required)
  else none

/-! ## Call data -/

/-- `nsec` of an elapsed time. -/
def nsec (t : Timespec) : BitVec 64 := BitVec.ofInt 64 t.nanos

/-- The line of a call. Both formatters have the same formats, with the number of
nanoseconds and the text of a floating-point number at the end. -/
def callDataLine (csv : Bool) (name : CString) (calls success failure elapsed : BitVec 64)
    (average : CString) : List UInt8 :=
  if csv then ascii " ".toList ++ name.bytes ++ ascii ", ".toList ++ unsigned 0 calls ++
    ascii ", ".toList ++ unsigned 0 success ++ ascii ", ".toList ++ unsigned 0 failure ++
    ascii ", ".toList ++ unsigned 0 elapsed ++ ascii ", ".toList ++ average.bytes ++
    ascii "\n".toList
  else name.bytes.leftpad 16 32 ++ ascii ": ".toList ++ unsigned 10 calls ++
    ascii " Calls (".toList ++ unsigned 10 success ++ ascii " Success, ".toList ++
    unsigned 10 failure ++ ascii " Failure), Elapsed = ".toList ++ unsigned 16 elapsed ++
    ascii " (ns), Average = ".toList ++ average.bytes.leftpad 16 32 ++ ascii " (ns)\n".toList

/-- The formatters of call data, with the lines that were measured and those that are
printed. -/
def formatCallData (csv : Bool) (measured lines : List (List UInt8)) (m : Mem) : Formatted :=
  let required := (if csv then headerSpace else 0) + lineSpace measured
  (writeLines required lines m 0).map (·, required)

structure BitbucketCallStatistics where
  calls : BitVec 64
  success : BitVec 64
  failure : BitVec 64
  elapsedTime : Timespec
  name : CString

/-- `BitbucketFormatCallDataEntry`. `fixed` is the text of a quotient. -/
def bitbucketFormatCallDataEntry (fixed : BitVec 64 → BitVec 64 → CString) (csv : Bool)
    (e : BitbucketCallStatistics) : List UInt8 :=
  callDataLine csv e.name e.calls e.success e.failure (nsec e.elapsedTime)
    (fixed (if e.calls = 0 then 0 else nsec e.elapsedTime) (if e.calls = 0 then 1 else e.calls))

def bitbucketFormatCallData (fixed : BitVec 64 → BitVec 64 → CString) (csv : Bool)
    (cd : List BitbucketCallStatistics) (m : Mem) : Formatted :=
  let lines := cd.map (bitbucketFormatCallDataEntry fixed csv)
  formatCallData csv lines lines m

def bitbucketCsvHeader : List UInt8 :=
  ascii " Routine, Invocations, Succeeded, Failed, Elapsed, Average\n".toList

structure ApiCallStatistics where
  calls : BitVec 64
  success : BitVec 64
  failure : BitVec 64
  libraryElapsedTime : Timespec
  nativeElapsedTime : Timespec
  name : CString

/-- `FinesseApiFormatCallDataEntry` prints an integer as a floating-point number, so
the text of that is the one of what happens to be in a register. -/
def finesseApiFormatCallDataEntry (csv : Bool) (e : ApiCallStatistics) (register : CString) :
    List UInt8 :=
  callDataLine csv e.name e.calls e.success e.failure (nsec e.nativeElapsedTime) register

def finesseApiLines (csv : Bool) (cd : List ApiCallStatistics) (registers : Nat → CString) :
    List (List UInt8) :=
  cd.mapIdx fun i e => finesseApiFormatCallDataEntry csv e (registers i)

/-- `FinesseApiFormatCallData`, with the texts from the registers for both loops. -/
def finesseApiFormatCallData (csv : Bool) (cd : List ApiCallStatistics)
    (measured printed : Nat → CString) (m : Mem) : Formatted :=
  formatCallData csv (finesseApiLines csv cd measured) (finesseApiLines csv cd printed) m

def apiCsvHeader : List UInt8 :=
  ascii "Routine, Invocations, Succeeded, Failed, Native:Elapsed, Library:Elapsed\n".toList

/-! ## What fits -/

variable {lines : List (List UInt8)} {m : Mem}

theorem load_snprintf {text l : List UInt8} {size : Nat} (h : load m 0 text.length = text)
    (hl : l.length < size) :
    load (snprintf m text.length size l) 0 ((text ++ l).length + 1) = text ++ l ++ [0] := by
  rw [snprintf, if_neg (by omega), take_of_length_le (by omega), length_append,
    Nat.add_assoc, load_add, load_store_apart m (.inl (by omega)), h, Nat.zero_add,
    load_store_of_length m (by simp), append_assoc]

theorem writeLines_fits {required : Nat} (ls : List (List UInt8)) :
    ∀ (l text : List UInt8) (m : Mem), load m 0 text.length = text →
    (text ++ l ++ ls.flatten).length < required →
    ∃ m', writeLines required (l :: ls) m text.length = some m' ∧
      load m' 0 ((text ++ l ++ ls.flatten).length + 1) = text ++ l ++ ls.flatten ++ [0] := by
  induction ls with
  | nil =>
    intro l text m htext hfits
    simp only [flatten_nil, append_nil, length_append] at hfits ⊢
    rw [writeLines, if_pos ⟨by omega, by omega⟩]
    have hload := load_snprintf htext (show l.length < required - text.length by omega)
    rw [length_append] at hload
    exact ⟨_, rfl, hload⟩
  | cons l' ls ih =>
    intro l text m htext hfits
    have hlen := hfits
    simp only [flatten_cons, length_append] at hlen
    have hload := load_snprintf htext (show l.length < required - text.length by omega)
    rw [load_add] at hload
    have hnext := (List.append_inj' hload rfl).1
    rw [flatten_cons, ← append_assoc] at hfits ⊢
    obtain ⟨m', hw, hm⟩ := ih l' (text ++ l) _ hnext hfits
    refine ⟨m', ?_, hm⟩
    rw [writeLines, if_pos ⟨by omega, by omega⟩, ← length_append]
    exact hw

theorem whole_iff {required : Nat} {text : List UInt8} (htext : load m 0 text.length = text)
    (hzero : (0 : UInt8) ∉ text ++ lines.flatten) (hne : lines = [] → required ≤ text.length) :
    Formatted.Whole ((writeLines required lines m text.length).map (·, required))
      (text ++ lines.flatten) ↔ (text ++ lines.flatten).length < required := by
  constructor
  · rintro ⟨m', size, hf, hs⟩
    obtain ⟨m'', -, ⟨⟩⟩ := Option.map_eq_some_iff.mp hf
    exact (stringAt_eq_some.mp hs).1
  intro hfits
  cases lines with
  | nil =>
    have := hne rfl
    rw [flatten_nil, append_nil] at hfits
    omega
  | cons l ls =>
    rw [flatten_cons, ← append_assoc] at hfits hzero ⊢
    obtain ⟨m', hw, hm⟩ := writeLines_fits ls l text m htext hfits
    exact ⟨m', required, by rw [hw]; rfl, stringAt_eq_some.mpr ⟨hfits, hm, hzero⟩⟩

/-- What the rounding adds to the lines. -/
def padding (lines : List (List UInt8)) : Nat :=
  (lines.map fun l => roundUp l.length - l.length).sum

theorem lineSpace_eq (lines : List (List UInt8)) :
    lineSpace lines = lines.flatten.length + padding lines := by
  induction lines with
  | nil => rfl
  | cons l ls ih =>
    have hround : l.length ≤ roundUp l.length := by
      rw [roundUp]
      omega
    rw [lineSpace, padding] at ih ⊢
    rw [map_cons, map_cons, sum_cons, sum_cons, ih, flatten_cons, length_append]
    omega

theorem zero_notMem_leftpad {l : List UInt8} (h : (0 : UInt8) ∉ l) (w : Nat) :
    (0 : UInt8) ∉ l.leftpad w 32 := by
  rw [leftpad, mem_append, mem_replicate]
  exact fun hm => hm.elim (fun hm => absurd hm.2 (by decide)) h

theorem zero_notMem_unsigned (w : Nat) (x : BitVec 64) : (0 : UInt8) ∉ unsigned w x :=
  zero_notMem_leftpad (zero_notMem_digits (by decide) (by decide) _) w

theorem zero_notMem_formatInodeTableData (csv : Bool) (d : BucketData) :
    (0 : UInt8) ∉ formatInodeTableData csv d := by
  cases csv
  all_goals
    simp only [formatInodeTableData, if_true, Bool.false_eq_true, if_false, mem_append, not_or,
      zero_notMem_unsigned, not_false_eq_true, true_and]
    decide

theorem zero_notMem_callDataLine {csv : Bool} {name : CString}
    {calls success failure elapsed : BitVec 64} {average : CString} :
    (0 : UInt8) ∉ callDataLine csv name calls success failure elapsed average := by
  have hname := name.nonzero
  have haverage := average.nonzero
  cases csv
  all_goals
    simp only [callDataLine, if_true, Bool.false_eq_true, if_false, mem_append, not_or, hname,
      haverage, zero_notMem_unsigned, zero_notMem_leftpad, not_false_eq_true, and_true, true_and]
    decide

theorem zero_notMem_flatten (h : ∀ l ∈ lines, (0 : UInt8) ∉ l) : (0 : UInt8) ∉ lines.flatten := by
  intro hm
  obtain ⟨l, hl, hz⟩ := mem_flatten.mp hm
  exact h l hl hz

theorem inodeTable_whole_iff (csv : Bool) (data : List BucketData) (m : Mem) :
    (bitbucketFormattedInodeTableStatistics csv data m).Whole
        (inodeTableHeader csv ++ (data.map (formatInodeTableData csv)).flatten) ↔
      (if csv then 22 else 24) ≤ padding (data.map (formatInodeTableData csv)) := by
  have hheader : (inodeTableHeader csv).length = (if csv then 22 else 24) + 15 := by
    cases csv <;> rfl
  have hspace := lineSpace_eq (data.map (formatInodeTableData csv))
  have hzero : (0 : UInt8) ∉ (data.map (formatInodeTableData csv)).flatten :=
    zero_notMem_flatten (forall_mem_map.mpr fun d _ => zero_notMem_formatInodeTableData csv d)
  unfold bitbucketFormattedInodeTableStatistics
  dsimp only
  generalize data.map (formatInodeTableData csv) = lines at hspace hzero ⊢
  have hbound : headerSpace + lineSpace lines = 16 + lines.flatten.length + padding lines := by
    rw [hspace, headerSpace]
    omega
  by_cases hroom : (inodeTableHeader csv).length < headerSpace + lineSpace lines
  · have hall : (0 : UInt8) ∉ inodeTableHeader csv ++ lines.flatten := by
      rw [mem_append, not_or]
      exact ⟨by cases csv <;> decide, hzero⟩
    have hne : lines = [] → headerSpace + lineSpace lines ≤ (inodeTableHeader csv).length := by
      rintro rfl
      cases csv <;> decide
    rw [if_pos hroom, whole_iff (load_store_self m 0 _) hall hne, length_append, hbound]
    omega
  · rw [if_neg hroom]
    exact iff_of_false nofun fun hpad => by omega

/-- The formatters of call data do not print the header, and have room for the lines
and their end only if that was rounded up. -/
theorem formatCallData_whole_iff {csv : Bool} {measured : List (List UInt8)}
    {header : List UInt8} (hzero : (0 : UInt8) ∉ lines.flatten)
    (hheader : if csv then headerSpace ≤ header.length else header = [])
    (hne : lines = [] → measured = []) :
    (formatCallData csv measured lines m).Whole (header ++ lines.flatten) ↔
      csv = false ∧ lines.flatten.length < lineSpace measured := by
  cases csv with
  | false =>
    obtain rfl : header = [] := hheader
    have hlen : (([] : List UInt8) ++ lines.flatten).length < lineSpace measured ↔
        false = false ∧ lines.flatten.length < lineSpace measured := by simp
    rw [← hlen, ← whole_iff (m := m) rfl hzero fun h => Nat.le_of_eq (by rw [hne h]; rfl),
      formatCallData]
    simp only [Bool.false_eq_true, if_false, Nat.zero_add, length_nil]
  | true =>
    refine iff_of_false ?_ nofun
    rintro ⟨m', size, hf, hs⟩
    simp only [formatCallData, if_true] at hf
    obtain ⟨m1, hw, ⟨⟩⟩ := Option.map_eq_some_iff.mp hf
    have hpos : 16 ≤ header.length := hheader
    have hfits := (stringAt_eq_some.mp hs).1
    rw [length_append] at hfits
    cases lines with
    | nil =>
      rw [hne rfl] at hfits
      exact absurd hfits (Nat.not_lt.mpr hpos)
    | cons l ls =>
      -- the memory holds the lines, which are not the header and the lines
      obtain ⟨m2, size, hf', hs'⟩ := (@whole_iff (l :: ls) m _ [] rfl hzero nofun).mpr
        (Nat.lt_of_le_of_lt (Nat.le_add_left _ _) hfits)
      cases hf.symm.trans hf'
      have heq := congrArg List.length (Option.mem_unique hs hs')
      rw [nil_append, length_append] at heq
      omega

/-- When the formatters return all of their lines, with the header. -/
theorem statistics_whole_iff (csv : Bool) (m : Mem) (data : List BucketData)
    (fixed : BitVec 64 → BitVec 64 → CString) (bitbucketCalls : List BitbucketCallStatistics)
    (apiCalls : List ApiCallStatistics) (measured printed : Nat → CString) :
    ((bitbucketFormattedInodeTableStatistics csv data m).Whole
        (inodeTableHeader csv ++ (data.map (formatInodeTableData csv)).flatten) ↔
      (if csv then 22 else 24) ≤ padding (data.map (formatInodeTableData csv))) ∧
    ((bitbucketFormatCallData fixed csv bitbucketCalls m).Whole
        ((if csv then bitbucketCsvHeader else []) ++
          (bitbucketCalls.map (bitbucketFormatCallDataEntry fixed csv)).flatten) ↔
      csv = false ∧ 0 < padding (bitbucketCalls.map (bitbucketFormatCallDataEntry fixed csv))) ∧
    ((finesseApiFormatCallData csv apiCalls measured printed m).Whole
        ((if csv then apiCsvHeader else []) ++ (finesseApiLines csv apiCalls printed).flatten) ↔
      csv = false ∧ (finesseApiLines csv apiCalls printed).flatten.length <
        lineSpace (finesseApiLines csv apiCalls measured)) := by
  refine ⟨inodeTable_whole_iff csv data m, ?_, ?_⟩
  · refine (formatCallData_whole_iff ?_ (by cases csv <;> decide) id).trans ?_
    · exact zero_notMem_flatten (forall_mem_map.mpr fun e _ => zero_notMem_callDataLine)
    · rw [lineSpace_eq, Nat.lt_add_right_iff_pos]
  refine formatCallData_whole_iff ?_ (by cases csv <;> decide) fun h => ?_
  · refine zero_notMem_flatten fun l hl => ?_
    obtain ⟨i, hi, rfl⟩ := mem_mapIdx.mp hl
    exact zero_notMem_callDataLine
  · rw [finesseApiLines, mapIdx_eq_nil_iff] at h ⊢
    exact h

/-- A new table in which every bucket has the same four counters, and whose lines have
no room for the header. -/
theorem header_overflows : ¬ (bitbucketFormattedInodeTableStatistics true
      (replicate 1024 ⟨100, 100, 10, 1⟩) fun _ => 0).Whole (inodeTableHeader true ++
        ((replicate 1024 ⟨100, 100, 10, 1⟩).map (formatInodeTableData true)).flatten) := by
  rw [inodeTable_whole_iff, map_replicate, padding, map_replicate, sum_replicate_nat]
  decide

end Finesse.Utils
