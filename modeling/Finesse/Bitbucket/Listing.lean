import Finesse.Bitbucket.Offsets

/-!
# Listing a directory page by page

A listing is a number of readdir or readdirplus requests, each from the offset
of the last entry that was received, until an empty buffer comes back. Between
the requests the volume may change, but not the directory. Every entry has to
come once and in the order of the list, as long as each buffer has room for one
more entry.

An entry is sent with the offset of the one after it, so the listing goes on
where it stopped if a seek finds that one again: the offsets of a volume differ
and are not zero. Left over is the directory without entries, which fails an
assertion.
-/

namespace Finesse.Bitbucket

open Prog Function Volume List Machine

/-! ## Pages -/

variable {front rest : List DirEntry} {k : Nat}

section Packing

variable {nameOffset size : Nat} {e : DirEntry} {es : List DirEntry}

/-- The space that entries take. -/
def namesBytes (nameOffset : Nat) (names : List Name) : Nat :=
  (names.map (entrySize nameOffset)).sum

/-- The space that entries of a directory take. -/
def entriesBytes (nameOffset : Nat) (es : List DirEntry) : Nat :=
  namesBytes nameOffset (es.map DirEntry.name)

theorem entriesBytes_cons : entriesBytes nameOffset (e :: es) =
    entrySize nameOffset e.name + entriesBytes nameOffset es := rfl

theorem lt_entrySize (h8 : nameOffset % 8 = 0) {name : Name} (h : name ≠ []) :
    nameOffset < entrySize nameOffset name := by
  have hlen := length_pos_iff.mpr h
  rw [entrySize]
  omega

theorem packEntries_fits {used : Nat} (h : used + nameOffset < size ∧
    entrySize nameOffset e.name ≤ size - used) :
    packEntries nameOffset size used (e :: es) =
      (e :: (packEntries nameOffset size (used + entrySize nameOffset e.name) es).1,
        (packEntries nameOffset size (used + entrySize nameOffset e.name) es).2) :=
  if_pos h

theorem packEntries_full {used : Nat} (h : ¬ (used + nameOffset < size ∧
    entrySize nameOffset e.name ≤ size - used)) :
    packEntries nameOffset size used (e :: es) = ([], 0) :=
  if_neg h

theorem packEntries_spec : ∀ {used : Nat}, used ≤ size →
    ∃ k ≤ es.length, (packEntries nameOffset size used es).1 = es.take k ∧
      used + entriesBytes nameOffset (es.take k) ≤ size ∧
      (0 < used → (packEntries nameOffset size used es).2 = 0) := by
  induction es with
  | nil =>
    intro used hused
    refine ⟨0, Nat.le_refl 0, rfl, hused, fun hpos => ?_⟩
    exact if_neg fun h : _ ∧ used = 0 => Nat.ne_of_gt hpos h.2
  | cons a es ih =>
    intro used hused
    by_cases hfit : used + nameOffset < size ∧ entrySize nameOffset a.name ≤ size - used
    · obtain ⟨k, hk, hpacked, hbytes, hstatus⟩ :=
        @ih (used + entrySize nameOffset a.name) (by omega)
      rw [packEntries_fits hfit]
      refine ⟨k + 1, Nat.succ_le_succ hk, congrArg (a :: ·) hpacked, ?_, fun hpos => ?_⟩
      · rw [take_succ_cons, entriesBytes_cons, ← Nat.add_assoc]
        exact hbytes
      · exact hstatus (Nat.lt_of_lt_of_le hpos (Nat.le_add_right _ _))
    · rw [packEntries_full hfit]
      exact ⟨0, Nat.zero_le _, rfl, hused, fun _ => rfl⟩

theorem pageOf_fits (h8 : nameOffset % 8 = 0) (hname : e.name ≠ [])
    (hfit : entrySize nameOffset e.name ≤ size) : ∃ k, 0 < k ∧ k ≤ (e :: es).length ∧
      pageOf nameOffset size 0 (e :: es) = ((withNext (e :: es)).take k, 0) ∧
      entriesBytes nameOffset ((e :: es).take k) ≤ size := by
  have hlt := lt_entrySize h8 hname
  have hpos : 0 < entrySize nameOffset e.name := Nat.lt_of_le_of_lt (Nat.zero_le _) hlt
  have hroom : 0 + nameOffset < size ∧ entrySize nameOffset e.name ≤ size - 0 := ⟨by omega, hfit⟩
  obtain ⟨k, hk, hpacked, hbytes, hstatus⟩ :=
    @packEntries_spec nameOffset size es (0 + entrySize nameOffset e.name) (by omega)
  refine ⟨k + 1, Nat.succ_pos k, Nat.succ_le_succ hk, ?_, ?_⟩
  · rw [pageOf, packEntries_fits hroom]
    refine Prod.ext ?_ (hstatus (by omega))
    show (withNext (e :: es)).take (List.length (e :: (packEntries nameOffset size _ es).1)) = _
    rw [hpacked, length_cons, length_take, Nat.min_eq_left hk]
  · rw [take_succ_cons, entriesBytes_cons]
    omega

theorem packEntries_exact (h8 : nameOffset % 8 = 0) {as : List DirEntry}
    (hnames : ∀ e ∈ as, e.name ≠ []) : ∀ used,
    packEntries nameOffset (used + entriesBytes nameOffset as) used (as ++ es) = (as, 0) := by
  induction as with
  | nil =>
    intro used
    cases es with
    | nil =>
      rw [nil_append, packEntries]
      exact congrArg (Prod.mk []) (if_neg fun h => by
        have := h.1
        simp [entriesBytes, namesBytes] at this)
    | cons e es =>
      rw [nil_append, packEntries]
      exact if_neg fun h => by
        have := h.1
        simp [entriesBytes, namesBytes] at this
  | cons a as ih =>
    intro used
    have hlt := lt_entrySize h8 (hnames a mem_cons_self)
    have hroom : used + nameOffset < used + entriesBytes nameOffset (a :: as) ∧
        entrySize nameOffset a.name ≤ used + entriesBytes nameOffset (a :: as) - used := by
      rw [entriesBytes_cons]
      omega
    have hrest := ih (fun e he => hnames e (mem_cons_of_mem a he))
      (used + entrySize nameOffset a.name)
    rw [cons_append, packEntries_fits hroom, entriesBytes_cons, ← Nat.add_assoc, hrest]

/-- The offset that is sent with the last entry before some others. -/
def nextOffset (es : List DirEntry) : Nat :=
  (es.head?.map DirEntry.offset).getD endOfDirectory

theorem withNext_map_fst (es : List DirEntry) : (withNext es).map Prod.fst = es := by
  induction es with
  | nil => rfl
  | cons e es ih => exact congrArg (e :: ·) ih

theorem withNext_getElem? : ∀ {es : List DirEntry} {k : Nat},
    (withNext es)[k]? = es[k]?.map fun e => (e, nextOffset (es.drop (k + 1))) := by
  intro es
  induction es with
  | nil => exact fun {k} => rfl
  | cons e es ih =>
    intro k
    cases k with
    | zero => rfl
    | succ k => exact ih

/-- The last entry of a page has the offset of the first one that is left. -/
theorem getLast?_withNext (hpos : 0 < k) (hk : k ≤ es.length) :
    ∃ e, ((withNext es).take k).getLast? = some (e, nextOffset (es.drop k)) := by
  obtain ⟨j, rfl⟩ : ∃ j, k = j + 1 := ⟨k - 1, by omega⟩
  obtain ⟨e, hj⟩ : ∃ e, es[j]? = some e := ⟨es.get ⟨j, hk⟩, getElem?_eq_getElem hk⟩
  refine ⟨e, ?_⟩
  rw [List.getLast?_take, if_neg (Nat.succ_ne_zero j), Nat.add_sub_cancel, withNext_getElem?, hj]
  rfl

theorem seek_append {as : List DirEntry}
    (hsorted : (as ++ e :: es).Pairwise fun a b => b.offset < a.offset) (hoff : e.offset ≠ 0) :
    bitbucketSeekDirectory (as ++ e :: es) e.offset = e :: es := by
  have hne : ∀ a ∈ as, a.offset ≠ e.offset := fun a ha =>
    Nat.ne_of_gt ((pairwise_append.mp hsorted).2.2 a ha e mem_cons_self)
  cases as with
  | nil =>
    rw [nil_append, bitbucketSeekDirectory, if_pos (.inr rfl)]
  | cons a as =>
    have hhead := hne a mem_cons_self
    rw [bitbucketSeekDirectory, if_neg (by simpa [hoff] using hhead),
      dropWhile_append_of_pos (fun b hb => by simpa using hne b hb)]
    simp

end Packing

/-! ## The handlers -/

namespace Volume

/-- `BitbucketReferenceInode` takes the inode. -/
structure Refers (s : Volume) (i : Nat) (r : Reason) : Prop where
  live : s.live i = true
  count : s.referenceCount i ≠ 0
  reason : s.referenceReasons i r ≤ s.referenceCount i

instance (s : Volume) (i : Nat) (r : Reason) : Decidable (s.Refers i r) :=
  decidable_of_iff (s.live i = true ∧ s.referenceCount i ≠ 0 ∧
    s.referenceReasons i r ≤ s.referenceCount i)
    ⟨fun h => ⟨h.1, h.2.1, h.2.2⟩, fun h => ⟨h.live, h.count, h.reason⟩⟩

/-- The number is that of a directory. -/
structure DirectoryAt (s : Volume) (ino d : Nat) : Prop where
  found : s.resolve ino = some d
  number : ino ≠ 0
  dir : s.inodeType d = .dir
  mode : sIsDir (s.inode d).mode = true
  refers : ∀ r, s.Refers d r

/-- readdirplus takes a reference for the entry. -/
def Needs (s : Volume) (d : Nat) (e : DirEntry) : Prop :=
  s.inodeType e.inode ≠ .dir ∨ (d ≠ e.inode ∧ s.parent d ≠ some e.inode)

instance (s : Volume) (d : Nat) (e : DirEntry) : Decidable (s.Needs d e) :=
  inferInstanceAs (Decidable (_ ∨ _))

/-- A lookup reference can be dropped, and the inode stays. -/
structure Spare (s : Volume) (d : Nat) : Prop where
  live : s.live d = true
  count : 1 < s.referenceCount d
  reason : 0 < s.referenceReasons d .lookup

end Volume

section Handlers

variable {s s' : Volume} {d i j ino nameOffset size off : Nat} {r q : Reason} {es : List DirEntry}

theorem reference_refers (h : s.Refers i r) :
    bitbucketReferenceInode i r s = some ((), s.addReferences i r 1) :=
  reference_eq h.live h.count h.reason

theorem Volume.Refers.add (h : s.Refers i r) : (s.addReferences j q 1).Refers i r := by
  have hcount := h.count
  have hreason := h.reason
  by_cases hi : i = j
  · subst hi
    refine ⟨h.live, ?_, ?_⟩
    · simp [addReferences]
    by_cases hr : r = q
    · subst hr
      simpa [addReferences] using hreason
    · simp only [addReferences, update_self, update_of_ne hr]
      omega
  · refine ⟨h.live, ?_, ?_⟩
    · simpa [addReferences, hi] using hcount
    · simpa [addReferences, hi] using hreason

theorem Volume.Spare.add (h : s.Spare d) : (s.addReferences j q 1).Spare d := by
  have hcount := h.count
  have hreason := h.reason
  by_cases hd : d = j
  · subst hd
    refine ⟨h.live, ?_, ?_⟩
    · simp only [addReferences, update_self]
      omega
    by_cases hq : Reason.lookup = q
    · subst hq
      simp [addReferences]
    · simpa [addReferences, hq] using hreason
  · refine ⟨h.live, ?_, ?_⟩
    · simpa [addReferences, hd] using hcount
    · simpa [addReferences, hd] using hreason

theorem dropLookup_spare (h : s.Spare d) : ∃ s', dropLookup d s = some ((), s') :=
  ⟨_, dereference_eq h.live h.count h.reason⟩

theorem lookupInode_directoryAt (h : s.DirectoryAt ino d) :
    lookupInode ino s = some (some d, s.addReferences d .lookup 1) :=
  lookupInode_eq h.number (reference_refers (h.refers .lookup)) h.found

theorem enumerate_eq (hname : 0 < nameOffset) (hdir : s.inodeType d = .dir)
    (hrefers : s.Refers d .enum) (hne : s.entries d ≠ []) (hoff : ∀ e ∈ s.entries d, e.offset ≠ 0) :
    ∃ k, enumerate d nameOffset size off s = some (Enumeration.pageFrom nameOffset size
          (bitbucketSeekDirectory (s.entries d) off),
        (s.addReferences d .enum 1).setInode d fun n => { n with epoch := k }) := by
  have hinit : bitbucketInitalizeDirectoryEnumerationContext d s =
      some ((), s.addReferences d .enum 1) := by
    rw [bitbucketInitalizeDirectoryEnumerationContext, get_bind,
      bind_some (assert_pos hdir s), bind_some (reference_refers hrefers),
      assert_pos hne]
  obtain ⟨y, hy⟩ : ∃ y, Enumeration.readPage nameOffset size off
      (.of (s.entries d) (s.inode d).epoch) = some (_, y) := Enumeration.readPage_of hname hne hoff
  refine ⟨y.epoch, ?_⟩
  rw [enumerate, bind_some hinit, get_bind]
  have hpage : Enumeration.readPage nameOffset size off (.of ((s.addReferences d .enum 1).entries d)
        ((s.addReferences d .enum 1).inode d).epoch) = _ := hy
  rw [hpage]
  rfl

theorem enumerate_nil (hne : s.entries d = []) : enumerate d nameOffset size off s = none := by
  rw [enumerate]
  refine bind_none ?_
  rw [bitbucketInitalizeDirectoryEnumerationContext, get_bind]
  by_cases hdir : s.inodeType d = .dir
  · rw [bind_some (assert_pos hdir s)]
    cases hr : bitbucketReferenceInode d .enum s with
    | none => exact bind_none hr
    | some p => rw [bind_some hr, assert_neg fun h => h hne]
  · exact bind_none (assert_neg hdir s)

/-! ### References for the entries -/

variable {e : DirEntry}

theorem referencePlus_needs : referencePlus d e s =
    if s.Needs d e then bitbucketReferenceInode e.inode .fuseLookup s
    else some ((), s) := by
  rw [referencePlus, get_bind]
  by_cases h : s.Needs d e
  · rw [if_pos h]
    exact congrFun (if_pos h) s
  · rw [if_neg h]
    exact congrFun (if_neg h) s

/-- What the references for entries keep. -/
structure Volume.Grows (s s' : Volume) : Prop where
  needs : ∀ d e, s'.Needs d e ↔ s.Needs d e
  refers : ∀ i r, s.Refers i r → s'.Refers i r
  spare : ∀ d, s.Spare d → s'.Spare d

theorem Volume.Grows.add (s : Volume) (i : Nat) (r : Reason) : s.Grows (s.addReferences i r 1) :=
  ⟨fun _ _ => Iff.rfl, fun _ _ h => h.add, fun _ h => h.add⟩

theorem Volume.Grows.setKernel (s : Volume) (i : Nat) (f : Kernel → Kernel) :
    s.Grows (s.setKernel i f) :=
  ⟨fun _ _ => Iff.rfl, fun _ _ h => ⟨h.live, h.count, h.reason⟩,
    fun _ h => ⟨h.live, h.count, h.reason⟩⟩

theorem givePlus_grows (s : Volume) (e : DirEntry) :
    ∃ s', givePlus e s = some ((), s') ∧ s.Grows s' := by
  rw [givePlus]
  split
  · exact ⟨s, rfl, ⟨fun _ _ => Iff.rfl, fun _ _ h => h, fun _ h => h⟩⟩
  · exact ⟨_, rfl, .setKernel s e.inode _⟩

theorem returnPlus_spare : ∀ {es : List DirEntry} {s : Volume},
    (∀ e ∈ es, s.Needs d e → s.Refers e.inode .fuseLookup) → s.Spare d →
    ∃ s', returnPlus d es s = some ((), s') ∧ s'.Spare d := by
  intro es
  induction es with
  | nil => exact fun {s} _ hs => ⟨s, rfl, hs⟩
  | cons e es ih =>
    intro s hes hs
    obtain ⟨s1, hr, hg1⟩ : ∃ s1, referencePlus d e s = some ((), s1) ∧ s.Grows s1 := by
      rw [referencePlus_needs]
      split
      · next hneeds =>
        exact ⟨_, reference_refers (hes e mem_cons_self hneeds), .add s _ _⟩
      · exact ⟨s, rfl, ⟨fun _ _ => Iff.rfl, fun _ _ h => h, fun _ h => h⟩⟩
    obtain ⟨s2, hk, hg2⟩ := givePlus_grows s1 e
    obtain ⟨s', hs', hspare⟩ := @ih s2 (fun a ha hneeds => hg2.refers _ _ (hg1.refers _ _
      (hes a (mem_cons_of_mem e ha) ((hg1.needs d a).mp ((hg2.needs d a).mp hneeds)))))
      (hg2.spare d (hg1.spare d hs))
    refine ⟨s', ?_, hspare⟩
    rw [returnPlus, bind_some hr, bind_some hk]
    exact hs'

theorem Volume.Refers.of_add (h : (s.addReferences j q 1).Refers i r) (hij : i ≠ j) :
    s.Refers i r := by
  refine ⟨h.live, ?_, ?_⟩
  · simpa [addReferences, hij] using h.count
  · simpa [addReferences, hij] using h.reason

theorem refers_of_givePlus {u : Unit} (h : givePlus e s = some (u, s')) :
    (∀ d a, s'.Needs d a ↔ s.Needs d a) ∧ ∀ i r, s'.Refers i r → s.Refers i r := by
  rw [givePlus] at h
  split at h
  · obtain ⟨-, rfl⟩ := pure_inv h
    exact ⟨fun _ _ => Iff.rfl, fun _ _ h => h⟩
  · rw [modify_inv h]
    exact ⟨fun _ _ => Iff.rfl, fun _ _ h => ⟨h.live, h.count, h.reason⟩⟩

theorem returnPlus_refers : ∀ {es : List DirEntry} {s s' : Volume} {u : Unit},
    returnPlus d es s = some (u, s') →
    ∀ e ∈ es, s.Needs d e → s.Refers e.inode .fuseLookup := by
  intro es
  induction es with
  | nil => exact fun _ e he => nomatch he
  | cons e es ih =>
    intro s s' u h
    obtain ⟨_, s1, hr, h⟩ := bind_inv h
    obtain ⟨_, s2, hk, h⟩ := bind_inv h
    obtain ⟨hneeds2, hrefers2⟩ := refers_of_givePlus hk
    have hrest := ih h
    rw [referencePlus_needs] at hr
    split at hr
    · obtain ⟨hl, hc, hle, rfl⟩ := reference_inv hr
      intro a ha hneeds
      by_cases hae : a.inode = e.inode
      · rw [hae]
        exact ⟨hl, hc, hle⟩
      · have ha := (mem_cons.mp ha).resolve_left fun h => hae (h ▸ rfl)
        exact (hrefers2 _ _ (hrest a ha ((hneeds2 d a).mpr hneeds))).of_add hae
    · next hno =>
      obtain rfl := (Prod.mk.inj (Option.some.inj hr)).2
      intro a ha hneeds
      have ha := (mem_cons.mp ha).resolve_left fun h => hno (h ▸ hneeds)
      exact hrefers2 _ _ (hrest a ha ((hneeds2 d a).mpr hneeds))

/-! ### Requests -/

/-- `FUSE_NAME_OFFSET` and `FUSE_NAME_OFFSET_DIRENTPLUS`. -/
def direntOffset (plus : Bool) : Nat := if plus then 152 else 24

/-- A request for a page: readdirplus or readdir. -/
def listRequest (plus : Bool) (ino size off : Nat) : M (List Reply) :=
  if plus then bitbucketReaddirplus ino size off else bitbucketReaddir ino size off

/-- The reply with a page. -/
def Volume.answer (s : Volume) (page : List (DirEntry × Nat) × Int) : List Reply :=
  if page.2 ≠ 0 then [.err page.2] else [.dirents (s.dirents page.1)]

theorem mem_of_pageFrom (h : e ∈ (Enumeration.pageFrom nameOffset size
    (bitbucketSeekDirectory es off)).1.map Prod.fst) : e ∈ es := by
  have hseek : e ∈ bitbucketSeekDirectory es off := by
    cases hs : bitbucketSeekDirectory es off with
    | nil =>
      rw [hs] at h
      cases h
    | cons a as =>
      rw [hs, Enumeration.pageFrom, pageOf, map_take, withNext_map_fst] at h
      exact mem_of_mem_take h
  rw [bitbucketSeekDirectory] at hseek
  split at hseek
  · exact hseek
  · exact (dropWhile_sublist _).subset hseek

variable (plus : Bool)

theorem listRequest_end : listRequest plus ino size endOfDirectory s = some ([.buf []], s) := by
  cases plus <;> rfl

/-- The entries name inodes that readdirplus takes. -/
def Volume.PlusRefers (s : Volume) (plus : Bool) (d : Nat) : Prop :=
  plus = true → ∀ e ∈ s.entries d, s.Needs d e → s.Refers e.inode .fuseLookup

/-- The volume while a page is sent: `d` has the references of the request and
of the enumeration. -/
def Volume.enumerating (s : Volume) (d k : Nat) : Volume :=
  (s.addReferences d .lookup 1 |>.addReferences d .enum 1).setInode d fun n => { n with epoch := k }

theorem Volume.DirectoryAt.spare (h : s.DirectoryAt ino d) (k : Nat) :
    (s.enumerating d k).Spare d := by
  have hcount := (h.refers .lookup).count
  refine ⟨(h.refers .lookup).live, ?_, ?_⟩
  · simp only [enumerating, setInode, addReferences, update_self]
    omega
  · simp [enumerating, setInode, addReferences]

theorem Volume.needs_enumerating : (s.enumerating d k).Needs d e ↔ s.Needs d e := by
  rw [Needs, enumerating, inodeType_setInode fun _ => by rfl]
  exact Iff.rfl

theorem Volume.Refers.enumerating (h : s.Refers i r) (k : Nat) :
    (s.enumerating d k).Refers i r := by
  have h : ((s.addReferences d .lookup 1).addReferences d .enum 1).Refers i r := h.add.add
  exact ⟨h.live, h.count, h.reason⟩

theorem Volume.Refers.of_enumerating (h : (s.enumerating d k).Refers i r)
    (hi : i ≠ d) : s.Refers i r := by
  have h : ((s.addReferences d .lookup 1).addReferences d .enum 1).Refers i r :=
    ⟨h.live, h.count, h.reason⟩
  exact (h.of_add hi).of_add hi

variable (h : s.DirectoryAt ino d)
include h

theorem Volume.DirectoryAt.enumerate (hname : 0 < nameOffset)
    (hne : s.entries d ≠ []) (hoff : ∀ e ∈ s.entries d, e.offset ≠ 0) :
    ∃ k, enumerate d nameOffset size off (s.addReferences d .lookup 1) =
      some (Enumeration.pageFrom nameOffset size
        (bitbucketSeekDirectory (s.entries d) off), s.enumerating d k) :=
  enumerate_eq hname h.dir ((h.refers .enum).add) hne hoff

variable (hend : off ≠ endOfDirectory)
include hend

theorem listRequest_found : listRequest plus ino size off s =
      (enumerate d (direntOffset plus) size off >>= fun page => do
        if plus then returnPlus d (page.1.map Prod.fst) else pure ()
        dropLookup d
        pure (s.answer page)) (s.addReferences d .lookup 1) := by
  have hmode : ¬ (!sIsDir ((s.addReferences d .lookup 1).inode d).mode) = true := by
    rw [show sIsDir ((s.addReferences d .lookup 1).inode d).mode = true from h.mode]
    decide
  have hreply : ∀ page : List (DirEntry × Nat) × Int,
      (pure (s.answer page) : M (List Reply)) = if page.2 ≠ 0 then pure [.err page.2]
        else pure [.dirents (s.dirents page.1)] := by
    intro page
    rw [answer]
    split <;> rfl
  cases plus with
  | false =>
    rw [listRequest, if_neg (by decide), bitbucketReaddir, if_neg hend,
      bind_some (lookupInode_directoryAt h)]
    dsimp only
    rw [get_bind, if_neg hmode]
    simp only [hreply]
    rfl
  | true =>
    rw [listRequest, if_pos rfl, bitbucketReaddirplus, if_neg hend,
      bind_some (lookupInode_directoryAt h)]
    dsimp only
    rw [get_bind, if_neg hmode]
    simp only [hreply]
    rfl

theorem listRequest_directoryAt (hne : s.entries d ≠ []) (hoff : ∀ e ∈ s.entries d, e.offset ≠ 0)
    (hplus : s.PlusRefers plus d) : ∃ s', listRequest plus ino size off s =
      some (s.answer (Enumeration.pageFrom (direntOffset plus) size
        (bitbucketSeekDirectory (s.entries d) off)), s') := by
  obtain ⟨k, hk⟩ := @Volume.DirectoryAt.enumerate s d ino (direntOffset plus) size off h
    (by cases plus <;> decide) hne hoff
  rw [listRequest_found plus h hend, bind_some hk]
  cases plus with
  | false =>
    obtain ⟨s', hs'⟩ := dropLookup_spare (h.spare k)
    exact ⟨s', bind_some hs'⟩
  | true =>
    obtain ⟨s1, hs1, hspare⟩ := @returnPlus_spare d ((Enumeration.pageFrom _ size
      (bitbucketSeekDirectory (s.entries d) off)).1.map Prod.fst) (s.enumerating d k)
      (fun e he hneeds => (hplus rfl e (mem_of_pageFrom he)
        (needs_enumerating.mp hneeds)).enumerating k) (h.spare k)
    obtain ⟨s', hs'⟩ := dropLookup_spare hspare
    exact ⟨s', (bind_some hs1).trans (bind_some hs')⟩

theorem listRequest_nil (hnil : s.entries d = []) : listRequest plus ino size off s = none := by
  rw [listRequest_found plus h hend]
  exact bind_none (enumerate_nil hnil)

theorem refers_of_listRequest (hne : s.entries d ≠ []) (hoff : ∀ e ∈ s.entries d, e.offset ≠ 0)
    {rs : List Reply} (hx : listRequest true ino size off s = some (rs, s')) :
    ∀ e ∈ (Enumeration.pageFrom 152 size (bitbucketSeekDirectory
      (s.entries d) off)).1.map Prod.fst, s.Needs d e → s.Refers e.inode .fuseLookup := by
  obtain ⟨k, hk⟩ := @Volume.DirectoryAt.enumerate s d ino 152 size off h (by decide) hne hoff
  rw [listRequest_found true h hend, direntOffset, if_pos rfl, bind_some hk] at hx
  obtain ⟨_, s1, hp, -⟩ := bind_inv hx
  intro e he hneeds
  have hrefers := returnPlus_refers hp e he (needs_enumerating.mpr hneeds)
  refine hrefers.of_enumerating ?_
  rintro rfl
  rcases hneeds with hdir | ⟨hself, -⟩
  · exact hdir h.dir
  · exact hself rfl

end Handlers

/-! ## Listings -/

/-- Who lists a directory: the offset to go on from, the names and numbers that
were received, whether an empty buffer has come, and the number of requests. -/
structure Reader where
  offset : Nat
  received : List (Name × Nat)
  finished : Bool
  requests : Nat
deriving DecidableEq, Repr

namespace Reader

def start : Reader := ⟨0, [], false, 0⟩

/-- A reply is received. -/
def receive (x : Reader) : List Reply → Option Reader
  | [.buf []] => some { x with finished := true, requests := x.requests + 1 }
  | [.dirents packed] =>
    match packed.getLast? with
    | none => some { x with finished := true, requests := x.requests + 1 }
    | some last => some
      { x with
        offset := last.offset
        received := x.received ++ packed.map fun r => (r.name, r.ino)
        requests := x.requests + 1 }
  | _ => none

/-- A request for a page: the volume that it comes to, and the size. -/
def step (plus : Bool) (ino : Nat) (x : Reader) (request : Volume × Nat) :
    Option (List Reply × Reader) :=
  match listRequest plus ino request.2 x.offset request.1 with
  | none => none
  | some (rs, _) => (x.receive rs).map fun x' => (rs, x')

theorem step_some {plus : Bool} {ino : Nat} {x x' : Reader} {q : Volume × Nat}
    {t : Volume} {rs : List Reply} (h : listRequest plus ino q.2 x.offset q.1 = some (rs, t))
    (hx : x.receive rs = some x') : x.step plus ino q = some (rs, x') := by
  rw [step, h]
  dsimp only
  rw [hx]
  rfl

/-- The space that a reply takes. -/
def used (plus : Bool) : List Reply → Nat
  | [.dirents packed] => namesBytes (direntOffset plus) (packed.map Dirent.name)
  | _ => 0

end Reader

namespace Volume

/-- The directory and what it names stay as they are. -/
structure SameDirectory (s t : Volume) (ino d : Nat) : Prop where
  directory : t.DirectoryAt ino d
  entries : t.entries d = s.entries d
  parent : t.parent d = s.parent d
  inodeType : ∀ e ∈ s.entries d, t.inodeType e.inode = s.inodeType e.inode
  number : ∀ e ∈ s.entries d, (t.inode e.inode).ino = (s.inode e.inode).ino
  refers : ∀ e ∈ s.entries d, s.Refers e.inode .fuseLookup → t.Refers e.inode .fuseLookup

/-- The names and numbers of entries. -/
def contents (s : Volume) (es : List DirEntry) : List (Name × Nat) :=
  es.map fun e => (e.name, (s.inode e.inode).ino)

/-- The listing goes on with a buffer that has room for the next entry. -/
structure Asked (s : Volume) (plus : Bool) (ino d : Nat) (x : Reader)
    (request : Volume × Nat) : Prop where
  same : s.SameDirectory request.1 ino d
  going : x.finished = false
  room : ∀ e ∈ (s.entries d)[x.received.length]?, entrySize (direntOffset plus) e.name ≤ request.2

/-- The request is answered with no more than was asked for. -/
def Answered (plus : Bool) (ino : Nat) (x : Reader) (request : Volume × Nat) : Prop :=
  ∃ rs x', x.step plus ino request = some (rs, x') ∧ Reader.used plus rs ≤ request.2

/-- What a listing has received: the first entries, in order and each once. When
an empty buffer has come it is all of them, and until then every request has
brought one more. -/
structure Received (s : Volume) (d : Nat) (x : Reader) : Prop where
  order : x.received <+: s.contents (s.entries d)
  all : x.finished = true → x.received = s.contents (s.entries d)
  progress : x.finished = false → x.requests ≤ x.received.length

/-- Every listing is right. -/
def ListsRight (s : Volume) (plus : Bool) (ino d : Nat) : Prop :=
  ∀ requests, Along (Reader.step plus ino) (s.Asked plus ino d) .start requests →
    Along (Reader.step plus ino) (Answered plus ino) .start requests ∧
    ∀ tr x, run (Reader.step plus ino) .start requests = some (tr, x) → s.Received d x

/-- There is something to list, the end of the list can be told from its
entries, and the references of readdirplus can be taken. -/
structure Listable (s : Volume) (plus : Bool) (d : Nat) : Prop where
  entries : s.entries d ≠ []
  offsets : ∀ e ∈ (s.entries d).tail, e.offset ≠ endOfDirectory
  refers : s.PlusRefers plus d

end Volume

section Listings

variable {s t : Volume} {plus : Bool} {ino d size : Nat} {x : Reader}

/-- Where a listing is: `rest` is left. -/
structure Volume.ReadTo (s : Volume) (d : Nat) (x : Reader) (front rest : List DirEntry) :
    Prop where
  split : s.entries d = front ++ rest
  received : x.received = s.contents front
  offset : x.offset = if front = [] then 0 else nextOffset rest
  finished : x.finished = true → rest = []
  progress : x.finished = false → x.requests ≤ front.length

theorem Volume.SameDirectory.plusRefers (h : s.SameDirectory t ino d)
    (hp : s.PlusRefers plus d) : t.PlusRefers plus d := by
  intro hplus e he hneeds
  rw [h.entries] at he
  refine h.refers e he (hp hplus e he ?_)
  rw [Needs, h.inodeType e he, h.parent] at hneeds
  exact hneeds

theorem direntOffset_mod (plus : Bool) : direntOffset plus % 8 = 0 := by
  cases plus <;> rfl

theorem Volume.ReadTo.last (h : s.ReadTo d x front [])
    (plus : Bool) (ino : Nat) (hne : s.entries d ≠ []) (q : Volume × Nat) :
    ∃ rs x', x.step plus ino q = some (rs, x') ∧ Reader.used plus rs ≤ q.2 ∧
      s.ReadTo d x' front [] := by
  have hfront : front ≠ [] := by
    rintro rfl
    exact hne h.split
  have hoff : x.offset = endOfDirectory := by
    rw [h.offset, if_neg hfront]
    rfl
  refine ⟨[.buf []], { x with finished := true, requests := x.requests + 1 }, ?_,
    Nat.zero_le _, ⟨h.split, h.received, h.offset, fun _ => rfl, nofun⟩⟩
  refine Reader.step_some (t := q.1) ?_ rfl
  rw [hoff, listRequest_end]

theorem receive_page (t : Volume) (x : Reader) (hpos : 0 < k)
    (hk : k ≤ rest.length) : x.receive (t.answer ((withNext rest).take k, 0)) = some { x with
        offset := nextOffset (rest.drop k)
        received := x.received ++ t.contents (rest.take k)
        requests := x.requests + 1 } := by
  obtain ⟨e, he⟩ := getLast?_withNext hpos hk
  have hlast : (t.dirents ((withNext rest).take k)).getLast? =
      some ⟨e.name, (t.inode e.inode).ino, nextOffset (rest.drop k)⟩ := by
    rw [dirents, List.getLast?_map, he]
    rfl
  have hreceived : (t.dirents ((withNext rest).take k)).map (fun r => (r.name, r.ino)) =
      t.contents (rest.take k) := by
    conv_rhs => rw [← withNext_map_fst rest, ← map_take]
    rw [dirents, contents, map_map, map_map]
    rfl
  rw [answer, if_neg fun h => h rfl, Reader.receive, hlast]
  dsimp only
  rw [hreceived]

theorem used_page (t : Volume) : Reader.used plus (t.answer ((withNext rest).take k, 0)) =
      entriesBytes (direntOffset plus) (rest.take k) := by
  conv_rhs => rw [← withNext_map_fst rest, ← map_take]
  rw [answer, if_neg fun h => h rfl, Reader.used, dirents, map_map, entriesBytes, map_map]
  rfl

variable {e : DirEntry}

/-- The offset where the listing goes on is that of the next entry. -/
theorem Volume.ReadTo.seek (hs : s.Stamped) (h : s.ReadTo d x front (e :: rest)) :
    bitbucketSeekDirectory (s.entries d) x.offset = e :: rest := by
  rw [h.offset, h.split]
  split
  · next hnil =>
    rw [hnil, nil_append, bitbucketSeekDirectory, if_pos (.inl rfl)]
  have horder := hs.inOrder d
  rw [h.split] at horder
  refine seek_append horder.sorted (Nat.ne_of_gt (horder.pos e ?_))
  exact mem_append_right _ mem_cons_self

theorem Volume.ReadTo.offset_ne (hl : s.Listable plus d)
    (h : s.ReadTo d x front (e :: rest)) : x.offset ≠ endOfDirectory := by
  rw [h.offset]
  split
  · decide
  next hne =>
  obtain ⟨a, as, rfl⟩ := exists_cons_of_ne_nil hne
  refine hl.offsets e ?_
  rw [h.split]
  exact mem_append_right _ mem_cons_self

theorem Volume.ReadTo.page {q : Volume × Nat} (hs : s.Stamped) (hl : s.Listable plus d)
    (hq : s.Asked plus ino d x q) (h : s.ReadTo d x front (e :: rest)) :
    ∃ rs x' k, x.step plus ino q = some (rs, x') ∧ Reader.used plus rs ≤ q.2 ∧
      s.ReadTo d x' (front ++ (e :: rest).take k) ((e :: rest).drop k) := by
  have hmem : ∀ a ∈ e :: rest, a ∈ s.entries d := by
    intro a ha
    rw [h.split]
    exact mem_append_right _ ha
  have hfit : entrySize (direntOffset plus) e.name ≤ q.2 := by
    refine hq.room e ?_
    rw [h.split, h.received, contents, length_map, getElem?_append_right
      (Nat.le_refl _), Nat.sub_self]
    rfl
  have hname : e.name ≠ [] := (hs.short d e (hmem e mem_cons_self)).1
  obtain ⟨k, hpos, hk, hpage, hbytes⟩ :=
    @pageOf_fits (direntOffset plus) q.2 e rest (direntOffset_mod plus) hname hfit
  have hne : q.1.entries d ≠ [] := by
    rw [hq.same.entries]
    exact hl.entries
  have hoff : ∀ a ∈ q.1.entries d, a.offset ≠ 0 := by
    rw [hq.same.entries]
    exact fun a ha => Nat.ne_of_gt ((hs.inOrder d).pos a ha)
  obtain ⟨t, ht⟩ : ∃ t, listRequest plus ino q.2 x.offset q.1 = some (_, t) :=
    listRequest_directoryAt plus hq.same.directory (h.offset_ne hl) hne hoff
      (hq.same.plusRefers hl.refers)
  rw [hq.same.entries, h.seek hs, Enumeration.pageFrom, hpage] at ht
  have htake : ((e :: rest).take k).length = k := by
    rw [length_take, Nat.min_eq_left hk]
  refine ⟨_, _, k, Reader.step_some ht (receive_page q.1 x hpos hk), ?_, ?_⟩
  · rw [used_page]
    exact hbytes
  refine ⟨?_, ?_, ?_, ?_, ?_⟩
  · rw [append_assoc, take_append_drop]
    exact h.split
  · have hsame : q.1.contents ((e :: rest).take k) = s.contents ((e :: rest).take k) :=
      map_congr_left fun a ha => by
        rw [hq.same.number a (hmem a (mem_of_mem_take ha))]
    show x.received ++ _ = _
    rw [h.received, hsame]
    exact map_append.symm
  · exact (if_neg fun hnil => Nat.ne_of_gt hpos (by
      rw [(append_eq_nil_iff.mp hnil).2] at htake
      exact htake.symm)).symm
  · exact fun hf => nomatch hq.going.symm.trans hf
  · intro hf
    rw [length_append, htake]
    exact Nat.add_le_add (h.progress hf) hpos

theorem Volume.ReadTo.step {q : Volume × Nat} (hs : s.Stamped)
    (hl : s.Listable plus d) (hq : s.Asked plus ino d x q) (h : s.ReadTo d x front rest) :
    ∃ rs x', x.step plus ino q = some (rs, x') ∧ Reader.used plus rs ≤ q.2 ∧
      ∃ front' rest', s.ReadTo d x' front' rest' := by
  cases rest with
  | nil =>
    obtain ⟨rs, x', hx, hused, hr⟩ := h.last plus ino hl.entries q
    exact ⟨rs, x', hx, hused, front, [], hr⟩
  | cons e rest =>
    obtain ⟨rs, x', k, hx, hused, hr⟩ := h.page hs hl hq
    exact ⟨rs, x', hx, hused, _, _, hr⟩

theorem Volume.ReadTo.toReceived (h : s.ReadTo d x front rest) : s.Received d x := by
  refine ⟨?_, fun hf => ?_, fun hf => ?_⟩
  · rw [h.received, h.split]
    exact ⟨s.contents rest, map_append.symm⟩
  · rw [h.received, h.split, h.finished hf, append_nil]
  · rw [h.received, contents, length_map]
    exact h.progress hf

theorem listsRight_of_listable (hs : s.Stamped) (hl : s.Listable plus d) :
    s.ListsRight plus ino d := by
  have hstart : ∃ front rest, s.ReadTo d .start front rest :=
    ⟨[], s.entries d, rfl, rfl, rfl, nofun, fun _ => Nat.le_refl 0⟩
  have hstep : ∀ x q rs x', (∃ front rest, s.ReadTo d x front rest) →
      s.Asked plus ino d x q → x.step plus ino q = some (rs, x') →
      ∃ front rest, s.ReadTo d x' front rest := by
    rintro x q rs x' ⟨front, rest, h⟩ hq hx
    obtain ⟨rs', x'', hx', -, hr⟩ := h.step hs hl hq
    obtain ⟨-, rfl⟩ := Prod.mk.inj (Option.mem_unique hx hx')
    exact hr
  intro requests ha
  refine ⟨along_of_along ?_ hstep hstart ha, fun tr x hrun => ?_⟩
  · rintro x q ⟨front, rest, h⟩ hq
    obtain ⟨rs, x', hx, hused, -⟩ := h.step hs hl hq
    exact ⟨rs, x', hx, hused⟩
  · obtain ⟨front, rest, h⟩ := run_invariant hstep hstart hrun ha
    exact h.toReceived

/-! ### Listings that go wrong -/

theorem Volume.SameDirectory.refl (h : s.DirectoryAt ino d) : s.SameDirectory s ino d :=
  ⟨h, rfl, rfl, fun _ _ => rfl, fun _ _ => rfl, fun _ _ h => h⟩

theorem pageFrom_exact (plus : Bool) (hs : s.Stamped)
    (hsplit : s.entries d = front ++ rest) (hne : s.entries d ≠ []) :
    Enumeration.pageFrom (direntOffset plus) (entriesBytes (direntOffset plus) front)
      (bitbucketSeekDirectory (s.entries d) 0) =
      ((withNext (s.entries d)).take front.length, 0) := by
  have hpacked : packEntries _ (0 + entriesBytes (direntOffset plus) front) 0
      (front ++ rest) = (front, 0) := packEntries_exact (direntOffset_mod plus)
    (fun e he => (hs.short d e (by rw [hsplit]; exact mem_append_left _ he)).1) 0
  rw [Nat.zero_add, ← hsplit] at hpacked
  have hpage : pageOf (direntOffset plus) (entriesBytes (direntOffset plus) front) 0
      (s.entries d) = ((withNext (s.entries d)).take front.length, 0) := by
    rw [pageOf, hpacked]
  obtain ⟨e, es, hcons⟩ := exists_cons_of_ne_nil hne
  rw [bitbucketSeekDirectory, if_pos (.inl rfl)]
  rw [hcons] at hpage ⊢
  exact hpage

theorem nonempty_of_listsRight (h : s.DirectoryAt ino d) (hr : s.ListsRight plus ino d) :
    s.entries d ≠ [] := by
  intro hnil
  have hasked : s.Asked plus ino d .start (s, 0) :=
    ⟨.refl h, rfl, fun e he => by rw [hnil] at he; cases he⟩
  obtain ⟨⟨⟨rs, x, hx, -⟩, -⟩, -⟩ := hr [(s, 0)] ⟨hasked, fun _ _ _ => trivial⟩
  rw [Reader.step, listRequest_nil plus h (by decide) hnil] at hx
  cases hx

theorem asked_exact (plus : Bool) (h : s.DirectoryAt ino d)
    (hsplit : s.entries d = front ++ rest) (hfront : front ≠ []) :
    s.Asked plus ino d .start (s, entriesBytes (direntOffset plus) front) := by
  refine ⟨.refl h, rfl, fun e he => ?_⟩
  obtain ⟨a, as, rfl⟩ := exists_cons_of_ne_nil hfront
  rw [hsplit] at he
  obtain rfl : a = e := Option.some.inj he
  exact Nat.le_add_right _ _

theorem plusRefers_of_listsRight (hs : s.Stamped) (h : s.DirectoryAt ino d)
    (hr : s.ListsRight plus ino d) : s.PlusRefers plus d := by
  rintro rfl
  have hne := nonempty_of_listsRight h hr
  have hsplit := (append_nil (s.entries d)).symm
  obtain ⟨⟨⟨rs, x, hx, -⟩, -⟩, -⟩ := hr [(s, entriesBytes (direntOffset true) (s.entries d))]
    ⟨asked_exact true h hsplit hne, fun _ _ _ => trivial⟩
  rw [Reader.step] at hx
  split at hx
  · cases hx
  next rs' t hlist =>
  have hrefers := refers_of_listRequest h (by decide) hne
    (fun e he => Nat.ne_of_gt ((hs.inOrder d).pos e he)) hlist
  have hpage := pageFrom_exact true hs hsplit hne
  rw [direntOffset, if_pos rfl] at hpage
  have hall : (withNext (s.entries d)).take (s.entries d).length = withNext (s.entries d) := by
    have hlen := congrArg List.length (withNext_map_fst (s.entries d))
    rw [length_map] at hlen
    rw [← hlen, take_length]
  have hsize : entriesBytes (direntOffset true) (s.entries d) =
      entriesBytes 152 (s.entries d) := rfl
  rw [hsize, show Reader.start.offset = 0 from rfl, hpage, hall, withNext_map_fst] at hrefers
  exact hrefers

/-- The entries from one with the offset of the end on are never sent. -/
theorem offsets_of_listsRight (hs : s.Stamped) (h : s.DirectoryAt ino d)
    (hr : s.ListsRight plus ino d) : ∀ e ∈ (s.entries d).tail, e.offset ≠ endOfDirectory := by
  intro e he hend
  have hne := nonempty_of_listsRight h hr
  obtain ⟨a, as, hcons⟩ := exists_cons_of_ne_nil hne
  rw [hcons, tail_cons] at he
  obtain ⟨before, after, rfl⟩ := append_of_mem he
  have hsplit : s.entries d = (a :: before) ++ e :: after := hcons
  have hfirst := asked_exact plus h hsplit nofun
  obtain ⟨t, ht⟩ : ∃ t, listRequest plus ino
      (entriesBytes (direntOffset plus) (a :: before)) 0 s = some (_, t) :=
    listRequest_directoryAt plus h (by decide) hne
      (fun e he => Nat.ne_of_gt ((hs.inOrder d).pos e he))
      (plusRefers_of_listsRight hs h hr)
  rw [pageFrom_exact plus hs hsplit hne] at ht
  have hlen : (a :: before).length ≤ (s.entries d).length := by
    rw [hsplit, length_append]
    exact Nat.le_add_right _ _
  obtain ⟨rs, hstep⟩ : ∃ rs, Reader.step plus ino .start
      (s, entriesBytes (direntOffset plus) (a :: before)) =
        some (rs, ⟨endOfDirectory, s.contents (a :: before), false, 1⟩) := by
    refine ⟨_, Reader.step_some ht ?_⟩
    have hpos : 0 < (a :: before).length := Nat.succ_pos _
    rw [receive_page s .start hpos hlen, hsplit, take_left,
      drop_left, show nextOffset (e :: after) = endOfDirectory from hend]
    rfl
  have hlast : Reader.step plus ino ⟨endOfDirectory, s.contents (a :: before), false, 1⟩
      (s, entrySize (direntOffset plus) e.name) =
      some ([.buf []], ⟨endOfDirectory, s.contents (a :: before), true, 2⟩) :=
    Reader.step_some (listRequest_end plus) rfl
  have hsecond : s.Asked plus ino d ⟨endOfDirectory, s.contents (a :: before), false, 1⟩
      (s, entrySize (direntOffset plus) e.name) := by
    refine ⟨.refl h, rfl, fun b hb => ?_⟩
    rw [hsplit, contents, length_map, getElem?_append_right (Nat.le_refl _), Nat.sub_self] at hb
    obtain rfl : e = b := Option.some.inj hb
    exact Nat.le_refl _
  obtain ⟨-, hreceived⟩ := hr [(s, entriesBytes (direntOffset plus) (a :: before)),
    (s, entrySize (direntOffset plus) e.name)] ⟨hfirst, fun ev x hx => by
      obtain ⟨-, rfl⟩ := Prod.mk.inj (Option.mem_unique hstep hx)
      exact ⟨hsecond, fun _ _ _ => trivial⟩⟩
  have hrun := (hreceived _ ⟨endOfDirectory, s.contents (a :: before), true, 2⟩ (by
    rw [run, hstep]
    dsimp only
    rw [run, hlast]
    rfl)).all rfl
  have hlen := congrArg List.length hrun
  rw [hsplit, contents, contents, length_map, length_map, length_append] at hlen
  exact absurd hlen (by simp)

theorem listsRight_iff_listable (hs : s.Stamped) (h : s.DirectoryAt ino d) :
    s.ListsRight plus ino d ↔ s.Listable plus d :=
  ⟨fun hr => ⟨nonempty_of_listsRight h hr, offsets_of_listsRight hs h hr,
    plusRefers_of_listsRight hs h hr⟩, listsRight_of_listable hs⟩

end Listings

instance (s : Volume) (plus : Bool) (d : Nat) : Decidable (s.PlusRefers plus d) := by
  delta PlusRefers
  infer_instance

instance (s : Volume) (plus : Bool) (d : Nat) : Decidable (s.Listable plus d) :=
  decidable_of_iff (s.entries d ≠ [] ∧
    (∀ e ∈ (s.entries d).tail, e.offset ≠ endOfDirectory) ∧ s.PlusRefers plus d)
    ⟨fun h => ⟨h.1, h.2.1, h.2.2⟩, fun h => ⟨h.entries, h.offsets, h.refers⟩⟩

/-- In every state that a volume reaches, the listings of a directory are right
exactly if it has entries, none but the first has the offset of the end, and
readdirplus can take its references. -/
theorem listing_right_iff {u : Userdata} {root bitbucket : NewInode} {others : List NewInode}
    {s s' : Volume} {rs : List Request} {tr : List Reply}
    (hinit : bitbucketInit root bitbucket others .empty = some ((), s))
    (hrun : run (Volume.step u) s rs = some (tr, s')) {ino d : Nat}
    (hd : s'.DirectoryAt ino d) (plus : Bool) : s'.ListsRight plus ino d ↔ s'.Listable plus d :=
  listsRight_iff_listable (stamped_run hinit hrun) hd

/-- What `DirectoryAt` says, as a test. -/
def Volume.directoryAt (s : Volume) (ino d : Nat) : Bool :=
  s.resolve ino = some d ∧ ino ≠ 0 ∧ s.inodeType d = .dir ∧
    sIsDir (s.inode d).mode = true ∧ ∀ r, s.Refers d r

theorem Volume.directoryAt_of_test {s : Volume} {ino d : Nat} (h : s.directoryAt ino d = true) :
    s.DirectoryAt ino d := by
  obtain ⟨hfound, hino, hdir, hmode, hrefers⟩ := of_decide_eq_true h
  exact ⟨hfound, hino, hdir, hmode, hrefers⟩

/-- The root directory of a volume with a file. -/
theorem listing_right_iff_root : ∃ s s' tr, newMount = some ((), s) ∧ run (Volume.step .plain) s
      [.create 1 ['f'] 0o100644 ⟨11, 0⟩] = some (tr, s') ∧
    s'.ListsRight false 1 0 ∧ s'.ListsRight true 1 0 := by
  refine exists_run (K := fun _ _ => True) (P := fun _ _ s' =>
    s'.directoryAt 1 0 = true ∧ s'.Listable false 0 ∧ s'.Listable true 0)
    (by decide +kernel) ?_
  rintro s tr s' hs hr - ⟨hserves, hlist, hplus⟩
  have hd := directoryAt_of_test hserves
  exact ⟨(listing_right_iff hs hr hd false).mpr hlist, (listing_right_iff hs hr hd true).mpr hplus⟩

/-- A directory that was removed, while the kernel still has its number: the
request is answered by a failed assertion. -/
theorem removed_directory_not_listed : ∃ s s' tr, newMount = some ((), s) ∧
    run (Volume.step .plain) s [.mkdir 1 ['a'] 0o755 ⟨11, 0⟩, .rmdir 1 ['a']] = some (tr, s') ∧
    s'.DirectoryAt 11 6 ∧ bitbucketReaddir 11 4096 0 s' = none ∧
    bitbucketReaddirplus 11 4096 0 s' = none ∧
    ¬ s'.ListsRight false 11 6 ∧ ¬ s'.ListsRight true 11 6 := by
  refine exists_run (K := fun _ _ => True) (P := fun _ _ s' =>
    s'.directoryAt 11 6 = true ∧ s'.entries 6 = []) (by decide +kernel) ?_
  rintro s tr s' - - - ⟨hserves, hnil⟩
  have hd := directoryAt_of_test hserves
  have hnone : ∀ plus, listRequest plus 11 4096 0 s' = none := fun plus =>
    listRequest_nil plus hd (by decide) hnil
  have hnot : ∀ plus, ¬ s'.ListsRight plus 11 6 := fun plus h =>
    nonempty_of_listsRight hd h hnil
  exact ⟨hd, hnone false, hnone true, hnot false, hnot true⟩

end Finesse.Bitbucket
