import Finesse.Lib.Text
import Finesse.Errno

/-!
# The name of a server

`GenerateServerName` prints a digest of the mount path, four words in hexadecimal.
Every word is given 16 bytes, but the next one starts after 8, and leading zeros
are not printed. So of a word only the first half of its digits stays, and a word
with fewer digits ends the text (`shown`).
-/

namespace Finesse.Comm

open Memory List

/-- A digest, as the words of `hash`. -/
abbrev Digest := Fin 4 → BitVec 64

def Digest.words (d : Digest) : List (BitVec 64) := [d 0, d 1, d 2, d 3]

/-- A word as `%llx` prints it. -/
def hexText (w : BitVec 64) : List UInt8 := digits 16 w.toNat

/-- The loop that prints the words, from the address `a`. -/
def printWords (m : Mem) (a : Nat) : List (BitVec 64) → Mem
  | [] => m
  | w :: ws => printWords (snprintf m a 16 (hexText w)) (a + 8) ws

/-- `%s/%s-%s` of the directory, the name of the service and a text. -/
def servicePath (text : List UInt8) : List UInt8 :=
  ascii "/tmp/finesse".toList ++ ascii "/".toList ++ ascii "Finesse-1.0".toList ++
    ascii "-".toList ++ text

/-- `GenerateServerName`, with the memory that holds `hash_string` at address 0. -/
def generateServerName (sha256 : List UInt8 → Digest) (m : Mem) (mountPath : CString)
    (serverNameLength : Nat) : Except Int (List UInt8) :=
  if serverNameLength ≤ (servicePath mountPath.bytes).length then .error EOVERFLOW
  else
    let hash := sha256 (servicePath mountPath.bytes)
    let m' := store (printWords m 0 hash.words) 64 [0]
    -- the byte that is stored last ends the text at the latest
    let name := servicePath ((stringAt m' 0 65).getD [])
    if serverNameLength ≤ name.length then .error EOVERFLOW else .ok name

/-- What is left of the words in the text. -/
def shown : List (BitVec 64) → List UInt8
  | [] => []
  | [w] => (hexText w).take 15
  | w :: v :: ws => if w.toNat < 2 ^ 28 then hexText w else (hexText w).take 8 ++ shown (v :: ws)

theorem printWords_of_lt {ws : List (BitVec 64)} : ∀ {m : Mem} {a x : Nat}, x < a →
    printWords m a ws x = m x := by
  induction ws with
  | nil => exact fun _ => rfl
  | cons w ws ih =>
    intro m a x hx
    rw [printWords, ih (by omega), snprintf, if_neg (by decide), store, if_neg (by omega)]

theorem length_hexText (w : BitVec 64) : (hexText w).length < 8 ↔ w.toNat < 2 ^ 28 := by
  rw [Nat.lt_succ_iff]
  exact length_digits_le_iff (by decide) (by decide)

theorem zero_notMem_take (w : BitVec 64) (k : Nat) : (0 : UInt8) ∉ (hexText w).take k :=
  fun h => zero_notMem_digits (by decide) (by decide) _ (mem_of_mem_take h)

theorem zero_notMem_shown : ∀ ws, (0 : UInt8) ∉ shown ws
  | [] => not_mem_nil
  | [w] => zero_notMem_take w 15
  | w :: v :: ws => by
    rw [shown]
    split
    · exact zero_notMem_digits (by decide) (by decide) _
    · rw [mem_append, not_or]
      exact ⟨zero_notMem_take w 8, zero_notMem_shown (v :: ws)⟩

theorem length_shown : ∀ ws, (shown ws).length ≤ 8 * ws.length + 7
  | [] => Nat.zero_le _
  | [w] => length_take_le 15 _
  | w :: v :: ws => by
    have ih := length_shown (v :: ws)
    rw [shown]
    split
    · next hw =>
      have := (length_hexText w).mpr hw
      omega
    · rw [length_append, length_take, length_cons]
      omega

/-- The words are printed as far as they are not printed over. -/
theorem load_printWords : ∀ (ws : List (BitVec 64)) (m : Mem) (a : Nat), ws ≠ [] →
    load (printWords m a ws) a ((shown ws).length + 1) = shown ws ++ [0]
  | [], _, _, h => absurd rfl h
  | [w], m, a, _ => by
    refine load_store_of_length m ?_
    rw [length_append]
    rfl
  | w :: v :: ws, m, a, _ => by
    have ih := load_printWords (v :: ws) (snprintf m a 16 (hexText w)) (a + 8) nofun
    -- the first eight bytes are those of this word
    have hkeep : ∀ k ≤ 8, load (printWords m a (w :: v :: ws)) a k =
        load (snprintf m a 16 (hexText w)) a k := by
      refine fun k hk => load_congr fun x _ hx => ?_
      rw [printWords]
      exact printWords_of_lt (by omega)
    have hfirst : ∀ k ≤ 8, k ≤ (hexText w).length + 1 →
        load (printWords m a (w :: v :: ws)) a k = ((hexText w).take 15 ++ [0]).take k := by
      intro k hk hlen
      rw [hkeep k hk]
      refine load_store_take m ?_
      rw [length_append, length_take, length_singleton]
      omega
    rw [shown]
    split
    · next hw =>
      have hlen := (length_hexText w).mpr hw
      rw [hfirst _ hlen (Nat.le_refl _), take_of_length_le (l := hexText w) (by omega)]
      exact take_of_length_le (by simp)
    next hw =>
    have hlen := mt (length_hexText w).mp hw
    rw [length_append, length_take, Nat.min_eq_left (by omega), Nat.add_assoc, load_add,
      hfirst 8 (Nat.le_refl 8) (by omega), append_assoc, ← ih]
    congr 1
    rw [take_append_of_le_length (by rw [length_take]; omega), take_take]
    rfl

theorem stringAt_hashString (m : Mem) (d : Digest) :
    stringAt (store (printWords m 0 d.words) 64 [0]) 0 65 = some (shown d.words) := by
  have hlen : (shown d.words).length ≤ 39 := length_shown d.words
  refine stringAt_eq_some.mpr ⟨by omega, ?_, zero_notMem_shown _⟩
  rw [load_store_apart _ (.inl (by omega))]
  exact load_printWords d.words m 0 nofun

/-- Two lists of words of which the text shows that they differ. -/
def TellsApart : List (BitVec 64) → List (BitVec 64) → Prop
  | [w], [w'] => (hexText w).take 15 ≠ (hexText w').take 15
  | w :: v :: ws, w' :: v' :: ws' => (hexText w).take 8 ≠ (hexText w').take 8 ∨
    2 ^ 28 ≤ w.toNat ∧ 2 ^ 28 ≤ w'.toNat ∧ TellsApart (v :: ws) (v' :: ws')
  | _, _ => False

theorem shown_ne_iff : ∀ (ws ws' : List (BitVec 64)), ws.length = ws'.length →
    (shown ws ≠ shown ws' ↔ TellsApart ws ws')
  | [], [], _ => iff_of_false (fun h => h rfl) id
  | [_], [_], _ => Iff.rfl
  | w :: v :: ws, w' :: v' :: ws', hlen => by
    have ih := shown_ne_iff (v :: ws) (v' :: ws') (Nat.succ.inj hlen)
    have hw := length_hexText w
    have hw' := length_hexText w'
    rw [TellsApart, shown, shown, ← ih]
    by_cases hs : w.toNat < 2 ^ 28 <;> by_cases hs' : w'.toNat < 2 ^ 28
    · rw [if_pos hs, if_pos hs', take_of_length_le (by omega),
        take_of_length_le (by omega)]
      exact ⟨.inl, fun h => h.resolve_right fun h => by omega⟩
    · -- a text with less than eight digits is none that goes on
      refine iff_of_true (fun h => ?_) (.inl fun h => ?_)
      all_goals
        replace h := congrArg List.length h
        simp only [if_pos hs, if_neg hs', length_append, length_take] at h
        omega
    · refine iff_of_true (fun h => ?_) (.inl fun h => ?_)
      all_goals
        replace h := congrArg List.length h
        simp only [if_neg hs, if_pos hs', length_append, length_take] at h
        omega
    have hlen : ((hexText w).take 8).length = ((hexText w').take 8).length := by
      rw [length_take, length_take]
      omega
    rw [if_neg hs, if_neg hs']
    constructor
    · intro h
      by_cases heq : (hexText w).take 8 = (hexText w').take 8
      · exact .inr ⟨by omega, by omega, fun he => h (by rw [heq, he])⟩
      · exact .inl heq
    · rintro (h | ⟨-, -, h⟩) he
      · exact h (append_inj_left he hlen)
      · exact h (append_inj_right he hlen)

/-- The digest of a mount path. -/
def mountDigest (sha256 : List UInt8 → Digest) (mountPath : CString) : Digest :=
  sha256 (servicePath mountPath.bytes)

theorem generateServerName_ok {sha256 : List UInt8 → Digest} {m : Mem} {p : CString} {n : Nat}
    {name : List UInt8} (h : generateServerName sha256 m p n = .ok name) :
    name = servicePath (shown (mountDigest sha256 p).words) := by
  unfold generateServerName at h
  split at h
  · cases h
  dsimp only at h
  rw [stringAt_hashString] at h
  split at h
  · cases h
  · cases h
    rfl

/-- Paths with different digests get different names, unless the text does not show
where the digests differ. -/
theorem server_names_differ_iff (sha256 : List UInt8 → Digest) {m m' : Mem} {p q : CString}
    {n k : Nat} {a b : List UInt8} (ha : generateServerName sha256 m p n = .ok a)
    (hb : generateServerName sha256 m' q k = .ok b) :
    (mountDigest sha256 p ≠ mountDigest sha256 q → a ≠ b) ↔
      mountDigest sha256 p = mountDigest sha256 q ∨
      TellsApart (mountDigest sha256 p).words (mountDigest sha256 q).words := by
  have hsame : a = b ↔ shown (mountDigest sha256 p).words = shown (mountDigest sha256 q).words := by
    rw [generateServerName_ok ha, generateServerName_ok hb, servicePath, servicePath,
      append_cancel_left_eq]
  have hdiff := shown_ne_iff (mountDigest sha256 p).words (mountDigest sha256 q).words rfl
  rw [← hdiff, Ne, Ne, hsame, Classical.or_iff_not_imp_left]

def mountA : CString := ⟨ascii "/a".toList, by decide⟩

def mountAb : CString := ⟨ascii "/ab".toList, by decide⟩

/-- A hash function whose digests differ in the first digits. -/
def firstDigits : List UInt8 → Digest := fun text _ => BitVec.ofNat 64 (2 ^ 60 * text.length)

/-- One whose digests differ in the last digits. -/
def lastDigits : List UInt8 → Digest := fun text _ => BitVec.ofNat 64 (2 ^ 60 + text.length)

theorem server_names_differ_iff_first : ∃ a b,
    generateServerName firstDigits (fun _ => 0) mountA 256 = .ok a ∧
    generateServerName firstDigits (fun _ => 0) mountAb 256 = .ok b ∧ a ≠ b := by
  have ha : generateServerName firstDigits (fun _ => 0) mountA 256 = .ok _ := rfl
  have hb : generateServerName firstDigits (fun _ => 0) mountAb 256 = .ok _ := rfl
  refine ⟨_, _, ha, hb, (server_names_differ_iff firstDigits ha hb).mpr (.inr (.inl ?_))
    fun h => ?_⟩
  · decide
  · exact absurd (congrFun h 0) (by decide)

/-- Two paths with different digests have one name. -/
def Share (sha256 : List UInt8 → Digest) (name : List UInt8) : Prop :=
  mountDigest sha256 mountA ≠ mountDigest sha256 mountAb ∧
    generateServerName sha256 (fun _ => 0) mountA 256 = .ok name ∧
    generateServerName sha256 (fun _ => 0) mountAb 256 = .ok name

/-- The last digits are not in the text, and a word that is zero ends it. -/
theorem digests_not_told_apart :
    Share lastDigits (servicePath (ascii "100000001000000010000000100000000000001".toList)) ∧
    Share (fun text i => if i = 0 then 0#64 else firstDigits text i)
      (servicePath (ascii "0".toList)) := by
  refine ⟨⟨fun h => ?_, rfl, rfl⟩, ⟨fun h => ?_, rfl, rfl⟩⟩
  all_goals exact absurd (congrFun h 1) (by decide)

end Finesse.Comm
