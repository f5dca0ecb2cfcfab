import Finesse.Bitbucket.Directory
import Finesse.Bitbucket.Enumeration

/-!
# Pages of a directory

The readdir and readdirplus handlers pack the entries of a directory, from an
offset on, into a buffer. An entry is sent with the offset of the one after
it, which is where the next request continues. For a directory that is linked
a page is what `packEntries` takes from the entries that `bitbucketSeekDirectory`
finds; its entries come from the directory in any case.
-/

namespace Finesse.Bitbucket

open Prog List

/-- The bytes that `fuse_add_direntry` needs for an entry. -/
def entrySize (nameOffset : Nat) (name : Name) : Nat :=
  (nameOffset + name.length + 7) / 8 * 8

variable {ps : List Nat} {epoch off : Nat} {es : List DirEntry}

namespace Enumeration

/-- A directory as the entries of a volume have it. -/
def of (es : List DirEntry) (epoch : Nat) : Enumeration where
  list := List.range es.length
  memory :=
    { cell := fun p => es[p]?
      next := es.length
      unused := fun _ hp => getElem?_eq_none hp }
  epoch := epoch
  context := ⟨none, 0, 0, 0⟩

/-- The loop of the handlers: the entries with the offsets they are sent with,
and the status. Every round takes space, so that `size` rounds are enough. The
error of a directory that has changed is never set. -/
def fillPage (nameOffset size : Nat) : Nat → Nat → Prog Enumeration (List (DirEntry × Nat) × Int)
  | 0, _ => pure ([], 0)
  | rounds + 1, used =>
    if used + nameOffset < size then do
      let p ← bitbucketEnumerateDirectory
      match p with
      | none => pure ([], if used = 0 then ENOENT else 0)
      | some p => do
        let e ← read p
        let x ← get
        if size - used < entrySize nameOffset e.name then pure ([], 0)
        else do
          let page ← fillPage nameOffset size rounds (used + entrySize nameOffset e.name)
          pure ((e, x.context.offset) :: page.1, page.2)
    else pure ([], 0)

/-- The page at an offset, with a new context. -/
def readPage (nameOffset size off : Nat) : Prog Enumeration (List (DirEntry × Nat) × Int) := do
  bitbucketInitalizeDirectoryEnumerationContext
  if off = 0 then fillPage nameOffset size (size + 1) 0
  else do
    let status ← bitbucketSeekDirectory off
    if status ≠ 0 then pure ([], status)
    else fillPage nameOffset size (size + 1) 0

/-! ## Where the entries come from -/

/-- The memory of the entries stays as it is, and the epoch may move on. -/
structure Follows (x y : Enumeration) : Prop where
  memory : y.memory = x.memory
  epoch : x.epoch ≤ y.epoch

instance : Std.Refl Follows := ⟨fun _ => ⟨rfl, Nat.le_refl _⟩⟩

instance : IsTrans Enumeration Follows :=
  ⟨fun _ _ _ h h' => ⟨h'.memory.trans h.memory, Nat.le_trans h.epoch h'.epoch⟩⟩

namespace Follows

variable {p offset : Nat}

theorem of_modify {f : Enumeration → Enumeration} (hm : ∀ x, (f x).memory = x.memory)
    (he : ∀ x, (f x).epoch = x.epoch) : Keeps Follows (modify f : Prog Enumeration Unit) := by
  intro x u y h
  rw [modify_inv h]
  exact ⟨hm x, Nat.le_of_eq (he x).symm⟩

theorem ensureInodeLockedAgainstChanges : Keeps Follows ensureInodeLockedAgainstChanges := by
  intro x u y h
  rw [modify_inv h]
  exact ⟨rfl, Nat.le_succ _⟩

theorem read : Keeps Follows (read p) := by
  intro x e y h
  obtain ⟨_, -, h⟩ := Option.map_eq_some_iff.mp h
  rw [← (Prod.mk.inj h).2]
  exact Std.Refl.refl x

theorem moveTo : Keeps Follows (moveTo p) :=
  read.bind fun _ => of_modify (fun _ => rfl) fun _ => rfl

theorem moveNowhere : Keeps Follows moveNowhere := of_modify (fun _ => rfl) fun _ => rfl

theorem findOffset : Keeps Follows (findOffset offset ps) := by
  induction ps with
  | nil => exact .pure _
  | cons p ps ih => exact read.bind fun _ => .ite (fun _ => .pure _) fun _ => ih

theorem seekDirectory : Keeps Follows (bitbucketSeekDirectory offset) := by
  refine ensureInodeLockedAgainstChanges.bind fun _ =>
    .bind (of_modify (fun _ => rfl) fun _ => rfl) fun _ => ?_
  refine .bind (.get_bind fun x => .ite (fun _ => ?_) fun _ => .ite
    (fun _ => .pure _) fun _ => ?_) fun _ => .get_bind fun _ => .pure _
  · refine .get_bind fun x => ?_
    cases x.list with
    | nil => exact moveNowhere
    | cons p ps => exact moveTo
  · refine moveNowhere.bind fun _ => .get_bind fun x => findOffset.bind fun o => ?_
    cases o with
    | none => exact .pure _
    | some p => exact moveTo

theorem newContext : Keeps Follows bitbucketInitalizeDirectoryEnumerationContext := by
  refine .bind (of_modify (fun _ => rfl) fun _ => rfl) fun _ => seekDirectory.bind fun _ => ?_
  intro x u y h
  rw [← (assert_inv h).2]
  exact Std.Refl.refl x

theorem returnEntry : Keeps Follows returnEntry := by
  refine .get_bind fun x => ?_
  cases x.context.nextEntry with
  | none => exact .assert_bind False.elim
  | some p =>
    refine .bind (read.bind fun _ => .get_bind fun x => ?_) fun _ => .pure _
    cases nextInList x.list p with
    | none => exact of_modify (fun _ => rfl) fun _ => rfl
    | some q => exact read.bind fun _ => of_modify (fun _ => rfl) fun _ => rfl

theorem enumerateDirectory : Keeps Follows bitbucketEnumerateDirectory := by
  refine ensureInodeLockedAgainstChanges.bind fun _ => .get_bind fun x => ?_
  refine .ite (fun _ => .pure _) fun _ => ?_
  cases x.context.nextEntry with
  | none => exact .bind (of_modify (fun _ => rfl) fun _ => rfl) fun _ => .pure _
  | some p =>
    refine .ite (fun _ => ?_) fun _ => returnEntry
    exact seekDirectory.bind fun _ => .ite (fun _ => .pure _) fun _ => returnEntry

end Follows

variable {nameOffset size : Nat} {rounds : Nat}

theorem mem_of_fillPage : ∀ {used : Nat} {x y : Enumeration} {page : List (DirEntry × Nat) × Int},
    fillPage nameOffset size rounds used x = some (page, y) →
    ∀ e ∈ page.1, ∃ p, x.memory.cell p = some e.1 := by
  induction rounds with
  | zero =>
    intro used x y page h e he
    obtain ⟨rfl, -⟩ := pure_inv h
    cases he
  | succ rounds ih =>
    intro used x y page h e he
    rw [fillPage] at h
    split at h
    · obtain ⟨o, x1, henum, h⟩ := bind_inv h
      cases o with
      | none =>
        obtain ⟨rfl, -⟩ := pure_inv h
        cases he
      | some p =>
        obtain ⟨a, x2, hread, h⟩ := bind_inv h
        have hmem1 := Follows.enumerateDirectory x _ x1 henum
        have hmem2 := Follows.read x1 _ x2 hread
        have h := get_bind_inv h
        split at h
        · obtain ⟨rfl, -⟩ := pure_inv h
          cases he
        obtain ⟨rest, x3, hrest, h⟩ := bind_inv h
        obtain ⟨rfl, -⟩ := pure_inv h
        rcases mem_cons.mp he with rfl | he
        · obtain ⟨_, ha, hx⟩ := Option.map_eq_some_iff.mp hread
          rw [← (Prod.mk.inj hx).1, ← hmem1.memory]
          exact ⟨p, ha⟩
        · obtain ⟨q, hq⟩ := ih hrest e he
          rw [show x2.memory = x.memory from
            hmem2.memory.trans hmem1.memory] at hq
          exact ⟨q, hq⟩
    · obtain ⟨rfl, -⟩ := pure_inv h
      cases he

theorem mem_of_readPage {y : Enumeration} {page : List (DirEntry × Nat) × Int}
    (h : readPage nameOffset size off (of es epoch) = some (page, y)) : ∀ e ∈ page.1, e.1 ∈ es := by
  have hes : ∀ {x : Enumeration}, x.memory = (of es epoch).memory → ∀ {p : Nat}
      {e : DirEntry}, x.memory.cell p = some e → e ∈ es := by
    intro x hx p e he
    rw [hx] at he
    exact mem_of_getElem? he
  obtain ⟨_, x1, hinit, h⟩ := bind_inv h
  have hmem1 := Follows.newContext _ _ x1 hinit
  intro e he
  split at h
  · obtain ⟨p, hp⟩ := mem_of_fillPage h e he
    exact hes hmem1.memory hp
  obtain ⟨status, x2, hseek, h⟩ := bind_inv h
  have hmem2 := Follows.seekDirectory x1 _ x2 hseek
  split at h
  · obtain ⟨rfl, -⟩ := pure_inv h
    cases he
  · obtain ⟨p, hp⟩ := mem_of_fillPage h e he
    exact hes (hmem2.memory.trans hmem1.memory) hp

theorem Follows.fillPage : ∀ used, Keeps Follows (fillPage nameOffset size rounds used) := by
  induction rounds with
  | zero => exact fun _ => .pure _
  | succ rounds ih =>
    intro used
    refine .ite (fun _ => ?_) fun _ => .pure _
    refine enumerateDirectory.bind fun o => ?_
    cases o with
    | none => exact .pure _
    | some p =>
      exact read.bind fun e => .get_bind fun x => .ite (fun _ => .pure _) fun _ =>
        (ih _).bind fun _ => .pure _

theorem Follows.readPage : Keeps Follows (readPage nameOffset size off) :=
  newContext.bind fun _ => .ite (fun _ => fillPage 0) fun _ =>
    seekDirectory.bind fun _ => .ite (fun _ => .pure _) fun _ => fillPage 0

/-! ## What a page is -/

end Enumeration

/-- Entries with the offsets that they are sent with. -/
def withNext : List DirEntry → List (DirEntry × Nat)
  | [] => []
  | e :: es => (e, (es.head?.map DirEntry.offset).getD endOfDirectory) :: withNext es

/-- What `readPage` is to return: the entries that fit, and the status. -/
def pageOf (nameOffset size used : Nat) (es : List DirEntry) : List (DirEntry × Nat) × Int :=
  let packed := packEntries nameOffset size used es
  ((withNext es).take packed.1.length, packed.2)

namespace Enumeration

section Pages

variable {x y : Enumeration} {rest : List Nat} {p nameOffset size used : Nat}

/-- The entries at some addresses. -/
def entriesAt (x : Enumeration) (ps : List Nat) : List DirEntry :=
  ps.filterMap x.memory.cell

theorem entriesAt_cons {e : DirEntry} (he : x.memory.cell p = some e) :
    x.entriesAt (p :: rest) = e :: x.entriesAt rest := by
  rw [entriesAt, filterMap_cons, he]
  rfl

/-- The context is before the entries `rest`, which are the last ones. -/
structure At (x : Enumeration) (rest : List Nat) : Prop extends Linked x where
  suffix : rest <:+ x.list
  next : x.context.nextEntry = rest.head?
  offset : x.context.offset = rest.head?.elim endOfDirectory x.offsetAt
  lastError : x.context.lastError = 0

theorem nextInList_append {qs : List Nat} (hp : p ∉ ps) :
    nextInList (ps ++ p :: qs) p = qs.head? := by
  rw [nextInList, dropWhile_append_of_pos]
  · simp
  intro q hq
  have hne : q ≠ p := fun h => hp (h ▸ hq)
  simpa using hne

namespace At

theorem offset_ne_zero (h : x.At rest) : x.context.offset ≠ 0 := by
  rw [h.offset]
  cases rest with
  | nil => exact show endOfDirectory ≠ 0 by decide
  | cons q qs =>
    obtain ⟨e, he, hoff⟩ := h.live q (h.suffix.subset mem_cons_self)
    rw [List.head?_cons, Option.elim_some, offsetAt_eq he]
    exact hoff

theorem enumerate (h : x.At (p :: rest)) :
    ∃ y, bitbucketEnumerateDirectory x = some (some p, y) ∧ x.SameList y ∧
      y.At rest := by
  have hp := h.suffix.subset mem_cons_self
  obtain ⟨y, hy, hm⟩ := h.toLinked.enumerate h.lastError h.next h.offset_ne_zero hp
  obtain ⟨ps, hps⟩ := h.suffix
  have hnext : nextInList x.list p = rest.head? := by
    have hnodup := h.nodup
    rw [← hps] at hnodup ⊢
    refine nextInList_append fun hmem => ?_
    exact (nodup_append.mp hnodup).2.2 p hmem p mem_cons_self rfl
  refine ⟨y, hy, hm.toSameList, h.toLinked.congr hm.toSameList, ?_, ?_, ?_, ?_⟩
  · rw [hm.list, ← hps]
    exact ⟨ps ++ [p], by simp⟩
  · rw [hm.next, hnext]
  · rw [hm.offset, hnext]
    congr 1
    funext q
    rw [offsetAt, offsetAt, hm.memory]
  · rw [hm.lastError, h.lastError]

theorem offset_eq (h : x.At rest) : x.context.offset =
      ((x.entriesAt rest).head?.map DirEntry.offset).getD endOfDirectory := by
  rw [h.offset]
  cases rest with
  | nil => rfl
  | cons q qs =>
    obtain ⟨e, he⟩ := h.exists_cell q (h.suffix.subset mem_cons_self)
    rw [entriesAt_cons he, List.head?_cons, Option.elim_some, offsetAt_eq he]
    rfl

theorem fillPage (hname : 0 < nameOffset) : ∀ {rest : List Nat} {x : Enumeration}
    {used rounds : Nat}, x.At rest → size - used < rounds →
    ∃ y, fillPage nameOffset size rounds used x =
      some (pageOf nameOffset size used (x.entriesAt rest), y) := by
  intro rest
  induction rest with
  | nil =>
    intro x used rounds h hr
    obtain ⟨r, rfl⟩ : ∃ r, rounds = r + 1 := ⟨rounds - 1, by omega⟩
    rw [Enumeration.fillPage]
    by_cases hroom : used + nameOffset < size
    · obtain ⟨y, hy, -⟩ := enumerate_end h.lastError h.next
      rw [if_pos hroom, bind_some hy]
      refine ⟨y, ?_⟩
      simp [pageOf, packEntries, entriesAt, withNext, hroom]
      rfl
    · rw [if_neg hroom]
      refine ⟨x, ?_⟩
      simp [pageOf, packEntries, entriesAt, withNext, hroom]
      rfl
  | cons p rest ih =>
    intro x used rounds h hr
    obtain ⟨r, rfl⟩ : ∃ r, rounds = r + 1 := ⟨rounds - 1, by omega⟩
    obtain ⟨e, he⟩ := h.exists_cell p (h.suffix.subset mem_cons_self)
    rw [Enumeration.fillPage, entriesAt_cons he, pageOf, packEntries, withNext]
    by_cases hroom : used + nameOffset < size
    · obtain ⟨y, hy, hsame, hat⟩ := h.enumerate
      have hread : read p y = some (e, y) := read_some (by rw [hsame.memory]; exact he)
      rw [if_pos hroom, bind_some hy]
      dsimp only
      rw [bind_some hread, get_bind]
      by_cases hfit : entrySize nameOffset e.name ≤ size - used
      · have hentries : y.entriesAt rest = x.entriesAt rest := by
          rw [entriesAt, hsame.memory]
          rfl
        have hpos : 0 < entrySize nameOffset e.name := by
          rw [entrySize]
          omega
        obtain ⟨z, hz⟩ := @ih y (used + entrySize nameOffset e.name) r hat (by omega)
        rw [if_neg (Nat.not_lt.mpr hfit), bind_some hz, if_pos ⟨hroom, hfit⟩,
          hat.offset_eq, hentries]
        exact ⟨z, rfl⟩
      · rw [if_pos (Nat.lt_of_not_le hfit), if_neg fun hf => hfit hf.2]
        exact ⟨y, rfl⟩
    · rw [if_neg hroom, if_neg fun hf => hroom hf.1]
      exact ⟨x, rfl⟩

theorem of_place {x : Enumeration} (h : x.Linked) {rest : List Nat}
    (hs : rest <:+ x.list) (hne : rest ≠ []) : (x.place rest.head?).At rest := by
  obtain ⟨p, rest, rfl⟩ := exists_cons_of_ne_nil hne
  exact ⟨h.congr ⟨rfl, rfl⟩, hs, rfl, rfl, rfl⟩

end At

theorem linked_of (h : ∀ e ∈ es, e.offset ≠ 0) : (of es epoch).Linked := by
  refine ⟨fun p hp => ?_, nodup_range⟩
  have hlt := mem_range.mp hp
  exact ⟨es[p], getElem?_eq_getElem hlt, h _ (getElem_mem hlt)⟩

theorem entriesAt_of (es : List DirEntry) (epoch : Nat) :
    (of es epoch).entriesAt (of es epoch).list = es := by
  have htake : ∀ k, (List.range k).filterMap (fun p => es[p]?) = es.take k := by
    intro k
    induction k with
    | zero => rfl
    | succ k ih =>
      rw [range_succ, filterMap_append, ih, take_add_one]
      cases hk : es[k]? <;> simp [hk]
  exact (htake es.length).trans take_length

theorem entriesAt_dropWhile (h : ∀ p ∈ ps, ∃ e, x.memory.cell p = some e) :
    x.entriesAt (ps.dropWhile fun p => x.offsetAt p ≠ off) =
      (x.entriesAt ps).dropWhile fun e => e.offset ≠ off := by
  induction ps with
  | nil => rfl
  | cons p ps ih =>
    obtain ⟨⟨e, he⟩, hps⟩ := forall_mem_cons.mp h
    rw [entriesAt_cons he, dropWhile_cons, dropWhile_cons, offsetAt_eq he]
    by_cases hoff : e.offset = off
    · rw [if_neg (by simpa using hoff), if_neg (by simpa using hoff), entriesAt_cons he]
    · rw [if_pos (by simpa using hoff), if_pos (by simpa using hoff), ih hps]

theorem head?_dropWhile {f : Nat → Prop} [DecidablePred f] :
    (ps.dropWhile fun p => ¬ f p).head? = ps.find? fun p => f p := by
  induction ps with
  | nil => rfl
  | cons p ps ih =>
    rw [dropWhile_cons, List.find?_cons]
    by_cases hp : f p
    · rw [if_neg (by simpa using hp), decide_eq_true hp]
      rfl
    · rw [if_pos (by simpa using hp), decide_eq_false hp, ih]

/-- The status of a seek and the place of the context after it, for the entries
from there on. -/
def Sought (y : Enumeration) (status : Int) : List DirEntry → Prop
  | [] => status = ENOENT
  | e :: es => status = 0 ∧ ∃ rest, y.At rest ∧ y.entriesAt rest = e :: es

theorem Linked.sought_place (h : x.Linked) (off : Nat) :
    (x.place (x.list.find? fun p => x.offsetAt p = off)).Sought
      (x.place (x.list.find? fun p => x.offsetAt p = off)).context.lastError
      ((x.entriesAt x.list).dropWhile fun e => e.offset ≠ off) := by
  rw [← entriesAt_dropWhile h.exists_cell, ← head?_dropWhile]
  have hsuffix := dropWhile_suffix (l := x.list) fun p => x.offsetAt p ≠ off
  cases hrest : x.list.dropWhile fun p => x.offsetAt p ≠ off with
  | nil => rfl
  | cons p rest =>
    rw [hrest] at hsuffix
    obtain ⟨e, he⟩ := h.exists_cell p (hsuffix.subset mem_cons_self)
    rw [entriesAt_cons he]
    exact ⟨rfl, p :: rest, .of_place h hsuffix nofun, entriesAt_cons he⟩

theorem Linked.seek (h : x.Linked) (hne : x.list ≠ []) (hoff : off ≠ 0) :
    ∃ status y, bitbucketSeekDirectory off (x.fresh.place x.list.head?) = some (status, y) ∧
      y.Sought status (Bitbucket.bitbucketSeekDirectory (x.entriesAt x.list) off) := by
  obtain ⟨p, ps, hl⟩ := exists_cons_of_ne_nil hne
  obtain ⟨e, he⟩ := h.exists_cell p (by rw [hl]; exact mem_cons_self)
  have hplaced : (x.fresh.place x.list.head?).At x.list :=
    .of_place (x := x.fresh) (h.congr ⟨rfl, rfl⟩) suffix_rfl hne
  have hsame := sameList_place x.fresh x.list.head?
  have hlink : (x.fresh.place x.list.head?).synced.Linked := hplaced.toLinked.congr ⟨rfl, rfl⟩
  have hentries : x.entriesAt x.list = e :: x.entriesAt ps := by
    rw [hl, entriesAt_cons he]
  have hstart : (x.fresh.place x.list.head?).synced.context.offset = e.offset := by
    rw [hl]
    exact offsetAt_eq he
  refine ⟨_, _, hplaced.toLinked.seekDirectory, ?_⟩
  rw [sought, if_neg hoff, Bitbucket.bitbucketSeekDirectory, hentries]
  by_cases hhead : e.offset = off
  · -- the context is there already
    rw [if_pos (hstart.trans hhead), if_pos (.inr (by rw [← hhead]; rfl))]
    refine ⟨hplaced.lastError, x.list, ⟨hlink, ?_, hplaced.next, hplaced.offset,
      hplaced.lastError⟩, ?_⟩
    · exact hplaced.suffix
    · rw [← hentries]
      exact congrArg (x.list.filterMap ·.cell) hsame.memory
  · rw [if_neg fun heq => hhead (hstart.symm.trans heq),
      if_neg (by simpa [hoff] using hhead), ← hentries]
    have hfrom : (x.fresh.place x.list.head?).synced.entriesAt
        (x.fresh.place x.list.head?).synced.list = x.entriesAt x.list :=
      congrArg₂ (fun ps (m : Blocks DirEntry) => filterMap m.cell ps) hsame.list hsame.memory
    rw [← hfrom]
    exact hlink.sought_place off

end Pages

/-- The page from the entries that a seek finds. -/
def pageFrom (nameOffset size : Nat) : List DirEntry → List (DirEntry × Nat) × Int
  | [] => ([], ENOENT)
  | e :: es => pageOf nameOffset size 0 (e :: es)

theorem readPage_of {nameOffset size : Nat} (hname : 0 < nameOffset) (hne : es ≠ [])
    (hoff : ∀ e ∈ es, e.offset ≠ 0) : ∃ y, readPage nameOffset size off (of es epoch) =
      some (pageFrom nameOffset size (Bitbucket.bitbucketSeekDirectory es off), y) := by
  have hlink : (of es epoch).Linked := linked_of hoff
  have hlist : (of es epoch).list ≠ [] := by
    intro hnil
    exact hne (length_eq_zero_iff.mp (range_eq_nil.mp hnil))
  have hnew := hlink.newContext
  rw [if_neg hlist] at hnew
  have hfill : ∀ {x : Enumeration} {rest : List Nat}, x.At rest →
      ∃ y, fillPage nameOffset size (size + 1) 0 x =
        some (pageOf nameOffset size 0 (x.entriesAt rest), y) :=
    fun h => h.fillPage hname (Nat.lt_succ_self _)
  rw [readPage, bind_some hnew]
  by_cases hzero : off = 0
  · have hat : ((of es epoch).fresh.place (of es epoch).list.head?).At (of es epoch).list :=
      .of_place (x := (of es epoch).fresh) (hlink.congr ⟨rfl, rfl⟩) suffix_rfl hlist
    obtain ⟨y, hy⟩ := hfill hat
    have hentries : ((of es epoch).fresh.place (of es epoch).list.head?).entriesAt
        (of es epoch).list = es :=
      (congrArg (fun m : Blocks DirEntry => filterMap m.cell _)
        (sameList_place _ _).memory).trans (entriesAt_of es epoch)
    obtain ⟨e, rest, rfl⟩ := exists_cons_of_ne_nil hne
    rw [if_pos hzero, Bitbucket.bitbucketSeekDirectory, if_pos (.inl hzero), hy, hentries]
    exact ⟨y, rfl⟩
  · obtain ⟨status, y, hy, hsought⟩ := hlink.seek hlist hzero
    rw [if_neg hzero, bind_some hy]
    rw [entriesAt_of] at hsought
    cases hrest : Bitbucket.bitbucketSeekDirectory es off with
    | nil =>
      rw [hrest] at hsought
      have hstatus : status = ENOENT := hsought
      rw [if_pos (by rw [hstatus]; decide), hstatus]
      exact ⟨y, rfl⟩
    | cons e rest =>
      rw [hrest] at hsought
      obtain ⟨hstatus, ps, hat, hentries⟩ := hsought
      obtain ⟨z, hz⟩ := hfill hat
      rw [if_neg (by rw [hstatus]; decide), hz, hentries]
      exact ⟨z, rfl⟩

end Enumeration

end Finesse.Bitbucket
