import Finesse.Bitbucket.Accounts
import Finesse.Bitbucket.Shape
import Finesse.Bitbucket.Linking

/-!
# Orderly volumes

Requests may leave references behind and take the entries `.` and `..` of a
directory away, and still the volume keeps a shape in which no assertion
about directories fails. `Orderly` is that shape between two requests; within
a request `Shaped` says what references are in hand. A few requests are
excluded: those that make an entry in a directory that was removed, that
unlink `.` or `..`, that exchange directories, and those for which the number
of a new inode is taken.
-/

namespace Finesse.Bitbucket

open Prog Volume Names Option
open Ledger (owe)

/-- The inode is no directory that was removed. -/
def Volume.Kept (s : Volume) (d : Nat) : Prop :=
  s.inodeType d = .dir → s.entries d ≠ []

instance (s : Volume) (d : Nat) : Decidable (s.Kept d) :=
  inferInstanceAs (Decidable (_ → _))

theorem Volume.kept_of_child {s : Volume} {d i : Nat} {n : Name}
    (h : s.names.child d n = some i) : s.Kept d := by
  intro _ hnil
  have h : (findEntry (s.entries d) n).map DirEntry.inode = some i := h
  rw [hnil] at h
  cases h

/-- The exchange that a rename request makes is not one of directories. -/
def Volume.ExchangesFiles (s : Volume) (p q i : Nat) (name newname : Name) (flags : Nat) : Prop :=
  s.RenameActs p q i name newname flags → flags &&& renameExchange ≠ 0 →
    ∀ j ∈ s.child q newname, s.inodeType i ≠ .dir ∧ s.inodeType j ≠ .dir

instance (s : Volume) (p q i : Nat) (name newname : Name) (flags : Nat) :
    Decidable (s.ExchangesFiles p q i name newname flags) :=
  inferInstanceAs (Decidable (_ → _))

theorem Volume.Quiet.shape {s s' : Volume} (h : s.Quiet s')
    (hs : s.names.Shape) : s'.names.Shape := by
  refine hs.congr h.child h.parent h.root (fun i _ => ?_) (Nat.le_of_eq h.next.symm)
  show s'.inodeType i = .dir ↔ s.inodeType i = .dir
  rw [h.inodeType]

/-- The names have their shape, and the references `a` are in hand, besides
others that nobody will drop. -/
structure Shaped (m a : Account) (s : Volume) : Prop where
  shape : s.names.Shape
  held : ∃ c, Held m (a + c) s

variable {status : Int} {r : Request} {b : Bool}

namespace Shaped

variable {α : Type} {m a : Account} {s s' : Volume} {u : Unit} {d i p q : Nat} {name newname : Name}

theorem calls : Calls (Shaped m) where
  add h hl := ⟨Quiet.shape (.of_inode rfl rfl rfl rfl rfl rfl) h.shape, Holds.add h.held hl⟩
  dereference h hx := ⟨(Quiet.dereference hx).shape h.shape,
    Holds.dereference h.held h.shape.linksBack hx⟩
  setKernel hf h := ⟨Quiet.shape (.of_inode rfl rfl rfl rfl rfl rfl) h.shape,
    Holds.giveKernel hf h.held⟩

theorem looked {o : Option Nat} (h : Shaped m a s) (hl : s.Looked s' o) :
    Shaped m (found a o) s' := by
  cases o with
  | none =>
    obtain rfl : s = s' := hl
    exact h
  | some i =>
    obtain ⟨hlive, rfl⟩ := hl
    exact calls.add h hlive

theorem setMode (h : Shaped m a s) (f : Nat → Nat) :
    Shaped m a (s.setInode i fun n => { n with mode := f n.mode }) :=
  ⟨(Quiet.setInode (f := fun n => { n with mode := f n.mode })
    (fun _ => rfl) (fun _ => rfl) (Nat.le_refl _)).shape h.shape,
    Holds.setInode h.held (fun _ => rfl) fun _ => rfl⟩

theorem leave {b : Account} (h : Shaped m (a + b) s) : Shaped m a s := by
  obtain ⟨c, hc⟩ := h.held
  exact ⟨h.shape, b + c, by rwa [add_assoc] at hc⟩

section

variable (h : Shaped m a s)
include h

theorem self (hd : s.entries d ≠ []) : s.names.child d dot = some d := by
  obtain ⟨c, hc⟩ := h.held
  obtain ⟨e, he⟩ := List.exists_mem_of_ne_nil _ hd
  have hfind := findEntry_of_mem (hc.nodup d) he
  exact (h.shape.self d e.name e.inode (congrArg (Option.map DirEntry.inode) hfind)).2

theorem ne_root (hn : Proper name) (hc : s.child p name = some i) : i ≠ s.root :=
  h.shape.ne_root hn hc

theorem root_ne_next : s.root ≠ s.next := Nat.ne_of_lt h.shape.root_lt

theorem insertNew (hi : s.inodeType i ≠ .dir) (hd : s.entries d ≠ [])
    (hname : Proper name) (hx : insertNew d i name s = some (u, s')) : Shaped m a s' := by
  obtain ⟨-, hlt, hfree, hn⟩ := names_insertNew hx
  obtain ⟨c, hc⟩ := h.held
  refine ⟨?_, c, hc.insertNew hx⟩
  rw [hn]
  refine h.shape.put_file (fun j hj => ?_) fun j hj => ?_
  · exact nomatch hfree.symm.trans hj
  · obtain rfl := some.inj hj
    exact ⟨hi, hlt, h.self hd, hname⟩

theorem createDirectory {new : NewInode} (hnew : s.table new.ino = none) (hp : s.Kept p)
    (hname : Proper name) (hx : bitbucketCreateDirectory p name new s = some (i, s')) :
    Shaped m (a + owe .lookup i 1) s' := by
  obtain ⟨rfl, hdir, hfree, hn⟩ := names_createDirectory h.root_ne_next hx
  obtain ⟨c, hc⟩ := h.held
  have hself := h.self (hp hdir)
  refine ⟨?_, c, ?_⟩
  · rw [hn]
    exact h.shape.mkdir hself hname (hfree (Nat.ne_of_lt (h.shape.used _ _ _ hself).1))
  · rw [add_right_comm]
    exact hc.createDirectory hnew hx

theorem create {t : InodeType} {new : NewInode}
    (hnew : s.table new.ino = none) : Shaped m (a + owe .lookup s.next 1) (s.create t new b) := by
  obtain ⟨c, hc⟩ := h.held
  refine ⟨?_, c, ?_⟩
  · rw [names_create _ _ _ _ h.root_ne_next]
    exact h.shape.fresh _
  · rw [add_right_comm]
    exact hc.create hnew

/-- A new inode that is not a directory is entered in a directory that was
there before. -/
theorem insertCreated {t : InodeType} {new : NewInode} {f : Inode → Inode}
    (hnew : s.table new.ino = none) (ht : t ≠ .dir) (hp : s.entries p ≠ [])
    (hname : Proper name) (hf : ∀ k, (f k).inodeType = k.inodeType) (hino : ∀ k, (f k).ino = k.ino)
    (hx : Bitbucket.insertNew p s.next name ((s.create t new b).setInode s.next f) = some (u, s')) :
    Shaped m (a + owe .lookup s.next 1) s' := by
  have hc := h.create (t := t) (b := b) hnew
  obtain ⟨c, hheld⟩ := hc.held
  have hs : Shaped m (a + owe .lookup s.next 1) ((s.create t new b).setInode s.next f) := by
    refine ⟨?_, c, hheld.setInode hf hino⟩
    rw [names_setInode_mode _ _ hf]
    exact hc.shape.congr rfl rfl rfl (fun _ _ => Iff.rfl) (Nat.le_refl _)
  refine hs.insertNew ?_ ?_ hname hx
  · rw [inodeType_setInode hf]
    simpa [Volume.inodeType, Volume.create, initialInode] using ht
  have hne : p ≠ s.next := Nat.ne_of_lt (h.shape.used _ _ _ (h.self hp)).1
  have hentries : ((s.create t new b).setInode s.next f).entries p =
      s.entries p := Function.update_of_ne hne _ _
  rw [hentries]
  exact hp

theorem createFile {new : NewInode} (hnew : s.table new.ino = none)
    (hp : s.Kept p) (hname : Proper name) (hx : bitbucketCreateFile p name new b s = some (i, s')) :
    Shaped m (a + owe .lookup i 1) s' := by
  obtain ⟨-, hdir, rfl, hi⟩ := createFile_inv hx
  have hid : (s.create .file new b).setInode s.next id = s.create .file new b := by
    rw [setInode, id, Function.update_eq_self]
  rw [← hid] at hi
  exact h.insertCreated (t := .file) (f := id) hnew (by simp) (hp hdir) hname
    (fun _ => rfl) (fun _ => rfl) hi

theorem createSymlink {link : Name} {new : NewInode} (hnew : s.table new.ino = none) (hp : s.Kept p)
    (hname : Proper name) (hx : bitbucketCreateSymlink p name link new s = some (i, s')) :
    Shaped m (a + owe .lookup i 1) s' := by
  obtain ⟨-, hdir, rfl, hi⟩ := createSymlink_inv hx
  exact h.insertCreated (t := .symlink) hnew nofun (hp hdir) hname (fun _ => by rfl)
    (fun _ => by rfl) hi

theorem deleteDirectoryEntry (hd : 0 < a .lookup d) (hname : Proper name)
    (hx : bitbucketDeleteDirectoryEntry d name s = some (status, s')) : Shaped m a s' := by
  obtain ⟨c, hc⟩ := h.held
  have hshape : s'.names.Shape := by
    rw [(clear_deleteDirectoryEntry hx).1]
    exact h.shape.clear hname
  exact ⟨hshape, c, hc.deleteDirectoryEntry (lookup_pos hd c) hshape.linksBack hx⟩

theorem removeFileFromDirectory (hp : 0 < a .lookup p) (hname : Proper name) :
    Ends (bitbucketRemoveFileFromDirectory p name) s fun _ s' => Shaped m a s' :=
  calls.removeFileFromDirectory h fun _ _ _ _ _ h _ _ hx =>
    h.deleteDirectoryEntry (lookup_pos hp _) hname hx

theorem insertTaken (hne : s.child p name ≠ none)
    (hx : bitbucketInsertDirectoryEntry p i name s = some (status, s')) :
    status = EEXIST ∧ Shaped m a s' := by
  obtain ⟨c, hc⟩ := h.held
  obtain ⟨-, -, ⟨hfree, -⟩ | ⟨-, rfl, hn⟩⟩ := names_insertDirectoryEntry hx
  · exact absurd hfree hne
  refine ⟨rfl, hn ▸ h.shape, c + owe .dirent i 1, ?_⟩
  rcases hc.insertDirectoryEntry hx with ⟨hfree, -⟩ | ⟨-, hc⟩
  · exact absurd hfree hne
  · rwa [add_assoc] at hc

theorem linkEntry (hp : 0 < a .lookup p) (hi : s.inodeType i = .file) (hdot : s.Kept p)
    (hname : Proper newname) (hx : linkEntry p i newname s = some (u, s')) : Shaped m a s' := by
  obtain ⟨status, s1, hins, hx⟩ := bind_inv hx
  obtain ⟨c, hc⟩ := h.held
  obtain ⟨hdir, hlt, ⟨hfree, rfl, hn⟩ | ⟨hne, rfl, hn⟩⟩ := names_insertDirectoryEntry hins
  · rw [if_neg (by decide)] at hx
    obtain ⟨-, rfl⟩ := pure_inv hx
    refine ⟨?_, c, ?_⟩
    · rw [hn]
      refine h.shape.put_file (fun j hj => nomatch hfree.symm.trans hj) fun j hj => ?_
      obtain rfl := some.inj hj
      exact ⟨fun hdir => absurd (hi.symm.trans hdir) nofun, hlt, h.self (hdot hdir), hname⟩
    · rcases hc.insertDirectoryEntry hins with ⟨-, hc⟩ | ⟨hne, -⟩
      · exact hc
      · exact absurd hfree hne
  · rw [if_pos rfl] at hx
    obtain ⟨_, s2, hr, hx⟩ := bind_inv hx
    obtain ⟨-, rfl⟩ := pure_inv hx
    exact (h.insertTaken hne hins).2.removeFileFromDirectory hp hname _ _ hr

/-- An inode gets a name that is free and loses another one, which may be the
same. -/
theorem moveEntry (hp : 0 < a .lookup p) (hq : s.Kept q)
    (hname : Proper name) (hnew : Proper newname)
    (hc : s.names.child p name = some i ∨ (p = q ∧ name = newname) ∧ s.names.child i dotdot = none)
    (hx : moveEntry p q i name newname s = some (status, s')) : Shaped m a s' := by
  have hn := (names_moveEntry (hc.imp_right And.left) hx).2
  obtain ⟨_, s1, hi, hx⟩ := bind_inv hx
  obtain ⟨hdir, -, hfree, -⟩ := names_insertNew hi
  have hshape : s'.names.Shape := by
    rw [hn]
    rcases hc with hc | ⟨⟨rfl, rfl⟩, hup⟩
    · exact h.shape.put_clear hname hnew hfree (h.self (hq hdir)) hc
    · rw [Names.Shape.put_clear_self hfree hup]
      exact h.shape
  obtain ⟨c, hheld⟩ := h.held
  exact ⟨hshape, c, (hheld.insertNew hi).deleteDirectoryEntry (lookup_pos hp c) hshape.linksBack hx⟩

end

/-! ### Handlers -/

section Handlers

variable {parent newparent mode flags : Nat} {new : NewInode}

variable (h : Shaped m a s)
include h

theorem bitbucketMkdir (hnew : s.table new.ino = none)
    (hp : ∀ p ∈ s.resolve parent, s.Kept p) (hname : Proper name) :
    Ends (bitbucketMkdir parent name mode new) s fun _ s' => Shaped m a s' :=
  calls.bitbucketMkdir h fun p _ _ hres h _ _ hx =>
    (h.createDirectory hnew (hp p hres) hname hx).setMode fun m =>
      (m &&& sIFMT) ||| permissions mode

theorem bitbucketCreate {us : Userdata} (hnew : s.table new.ino = none)
    (hp : ∀ p ∈ s.resolve parent, s.Kept p) (hname : Proper name) :
    Ends (bitbucketCreate us parent name mode new) s fun _ s' =>
      Shaped m a s' := by
  refine calls.bitbucketCreate h fun p _ _ hres h x hmem i s' hx => ?_
  refine setMode ?_ fun _ => (mode &&& sIFMT) ||| (mode &&& 0o7777)
  rcases List.mem_pair.mp hmem with rfl | rfl
  · exact h.createDirectory hnew (hp p hres) hname hx
  · exact h.createFile hnew (hp p hres) hname hx

theorem bitbucketSymlink {link : Name} (hnew : s.table new.ino = none)
    (hp : ∀ p ∈ s.table parent, s.Kept p) (hname : Proper name) :
    Ends (bitbucketSymlink link parent name new) s fun _ s' => Shaped m a s' :=
  calls.bitbucketSymlink h fun p _ _ hres h _ _ hx =>
    h.createSymlink hnew (hp p hres) hname hx

theorem bitbucketLink {ino : Nat}
    (hp : ∀ p ∈ s.resolve newparent, s.Kept p) (hname : Proper newname) :
    Ends (bitbucketLink ino newparent newname) s fun _ s' => Shaped m a s' :=
  calls.bitbucketLink h fun _ p _ _ _ _ hres hi h _ _ hx =>
    h.linkEntry (lookup_owe_pos _ p) hi (hp p hres) hname hx

theorem bitbucketUnlink (hname : Proper name) :
    Ends (bitbucketUnlink parent name) s fun _ s' => Shaped m a s' :=
  calls.bitbucketUnlink h fun p _ _ _ h _ _ hx =>
    h.deleteDirectoryEntry (lookup_owe_pos a p) hname hx

end Handlers

variable (h : Shaped m a s)
include h

theorem deleteDot (hi : 0 < a .lookup i) (hroot : i ≠ s.root)
    (hunnamed : ∀ e k, Proper k → s.names.child e k ≠ some i) (hdot : s.names.child i dot = some i)
    (honly : ∀ k y, s.names.child i k = some y → k = dot)
    (hx : bitbucketDeleteDirectoryEntry i dot s = some (status, s')) : Shaped m a s' := by
  have hup : s.names.child i dotdot = none := by
    cases hc : s.names.child i dotdot with
    | none => rfl
    | some p => exact absurd (honly dotdot p hc) (by decide)
  have hshape : s'.names.Shape := by
    rw [(clear_deleteDirectoryEntry hx).1, Names.clear, hdot]
    dsimp only
    rw [if_pos (h.shape.self i dot i hdot).1, detach,
      put_child_of_ne fun he => absurd he.2 (by decide), hup]
    exact h.shape.put_dot_none hroot honly hunnamed
  obtain ⟨c, hc⟩ := h.held
  exact ⟨hshape, c, hc.deleteDirectoryEntry (lookup_pos hi c) hshape.linksBack hx⟩

theorem deleteDirectory (hi : 0 < a .lookup i) (hroot : i ≠ s.root)
    (hunnamed : ∀ e k, Proper k → s.names.child e k ≠ some i)
    (hx : bitbucketDeleteDirectory i s = some (0, s')) : Shaped m a s' := by
  obtain ⟨-, hlen, hx⟩ := deleteDirectory_inv hx
  obtain ⟨x, hdot⟩ := ne_none_iff_exists'.mp ((clear_deleteDirectoryEntry hx).2.mp rfl)
  obtain rfl := h.shape.dot_eq hdot
  refine h.deleteDot hi hroot hunnamed hdot (fun k y hk => ?_) hx
  obtain ⟨e, he, -⟩ := map_eq_some_iff.mp hdot
  obtain ⟨e', he', -⟩ := map_eq_some_iff.mp hk
  have heq : e = e' := by
    have hmem := findEntry_mem he
    have hmem' := findEntry_mem he'
    rcases hes : s.entries x with _ | ⟨b, _ | ⟨b', l⟩⟩ <;>
      rw [hes] at hlen hmem hmem'
    · cases hmem
    · exact (List.mem_singleton.mp hmem).trans (List.mem_singleton.mp hmem').symm
    · simp at hlen
  rw [← findEntry_name he, ← findEntry_name he', heq]

theorem bitbucketRmdir {parent : Nat} (hname : Proper name) :
    Ends (bitbucketRmdir parent name) s fun _ s' => Shaped m a s' := by
  refine calls.bitbucketRmdir h (fun _ _ _ _ _ _ h => h.leave)
    fun p i c r s1 _ hc hdir h hdel status s' hdd hz => ?_
  subst hz
  have hn := (clear_deleteDirectoryEntry hdel).1
  have h1 := h.deleteDirectoryEntry (lookup_pos (lookup_owe_pos a p) _) hname hdel
  refine h1.deleteDirectory (lookup_owe_pos _ i) ?_ ?_ hdd
  · intro hroot
    have hr : s1.root = s.root := (congrArg Names.root hn).trans clear_root
    exact h.shape.ne_root hname hc (hroot.trans hr)
  · intro e k hk
    rw [hn]
    exact h.shape.clear_unnamed hname hc hdir hk

theorem exchangeObjectsInDirectory {j : Nat} (hc : s.child p name = some i)
    (hc' : s.child q newname = some j) (hi : s.inodeType i ≠ .dir) (hj : s.inodeType j ≠ .dir)
    (hx : bitbucketExchangeObjectsInDirectory p q name newname s = some (status, s')) :
    Shaped m a s' := by
  obtain ⟨c, hheld⟩ := h.held
  refine ⟨?_, c, hheld.exchangeObjectsInDirectory hx⟩
  rcases names_exchangeObjectsInDirectory hx with hn | ⟨-, i', j', hi', hj', hn⟩
  · rw [hn]
    exact h.shape
  obtain rfl := mem_unique hc hi'
  obtain rfl := mem_unique hc' hj'
  rw [hn]
  exact h.shape.exchange hc hc' hi hj

theorem renameStep {flags : Nat} (hpa : 0 < a .lookup p) (hqa : 0 < a .lookup q)
    (hcond : flags &&& renameExchange ≠ 0 → ∀ j ∈ s.child q newname,
      s.inodeType i ≠ .dir ∧ s.inodeType j ≠ .dir)
    (hkept : s.Kept q) (hname : Proper name) (hnew : Proper newname)
    (hc : s.child p name = some i)
    (hstep : RenameStep p q i name newname flags s status s') : Shaped m a s' := by
  cases hstep with
  | move _ hm => exact h.moveEntry hpa hkept hname hnew (.inl hc) hm
  | exchange hj hex hx =>
    obtain ⟨hif, hjf⟩ := hcond hex _ hj
    exact h.exchangeObjectsInDirectory hc hj hif hjf hx
  | replace hj _ hd hm =>
    have hn := (clear_deleteDirectoryEntry hd).1
    refine (h.deleteDirectoryEntry hqa hnew hd).moveEntry hpa ?_ hname hnew ?_ hm
    · refine kept_of_child (n := dot) (i := q) ?_
      rw [hn]
      exact Names.Shape.clear_dot hnew (h.shape.self q newname _ hj).2
    rw [hn]
    by_cases hslot : p = q ∧ name = newname
    · obtain ⟨rfl, rfl⟩ := hslot
      exact .inr ⟨⟨rfl, rfl⟩, h.shape.clear_up hc⟩
    refine .inl ?_
    rw [clear_child ⟨hslot, fun _ _ _ he => hname.2 he.2⟩]
    exact hc

theorem bitbucketRename {parent newparent flags : Nat}
    (hcond : ∀ p ∈ s.resolve parent, ∀ q ∈ s.resolve newparent,
      s.Kept q ∧ ∀ i ∈ s.child p name, s.ExchangesFiles p q i name newname flags) :
    Ends (bitbucketRename parent name newparent newname flags) s fun _ s' =>
      Shaped m a s' := by
  refine calls.bitbucketRename h fun p q i c r status s' hr h hstep => ?_
  obtain ⟨hkept, hex⟩ := hcond p hr.parent q hr.newparent
  exact h.renameStep (found_pos (lookup_pos (lookup_pos (lookup_owe_pos a p) _) _) _)
    (found_pos (lookup_pos (lookup_owe_pos _ q) _) _) (hex i hr.child hr.acts) hkept
    hr.acts.1 hr.acts.2.1 hr.child hstep

end Shaped

/-! ## Runs -/

/-- A volume between two requests. -/
structure Volume.Orderly (s : Volume) : Prop
    extends Shaped s.mounted s.mounted s where
  counted : s.Counted (· ≠ .symlink)

/-- The requests that keep a volume orderly. -/
def Volume.KeepsOrder (s : Volume) : Request → Prop
  | .mkdir parent name _ new | .create parent name _ new =>
    s.table new.ino = none ∧ Proper name ∧ ∀ p ∈ s.resolve parent, s.Kept p
  | .symlink _ parent name new =>
    s.table new.ino = none ∧ Proper name ∧ ∀ p ∈ s.table parent, s.Kept p
  | .link _ newparent newname =>
    Proper newname ∧ ∀ p ∈ s.resolve newparent, s.Kept p
  | .rename parent name newparent newname flags =>
    ∀ p ∈ s.resolve parent, ∀ q ∈ s.resolve newparent,
      s.Kept q ∧ ∀ i ∈ s.child p name, s.ExchangesFiles p q i name newname flags
  | .unlink _ name | .rmdir _ name => Proper name
  | .readdirplus ino _ _ =>
    ∀ i ∈ s.resolve ino, ∀ e ∈ s.entries i, s.Listed i e
  | _ => True

instance (s : Volume) : Decidable (s.KeepsOrder r) := by
  casesm Request <;> dsimp only [KeepsOrder] <;> infer_instance

theorem Volume.KeepsOrder.plusListed {s : Volume} (h : s.KeepsOrder r) : s.PlusListed r := by
  cases r with
  | readdirplus ino _ _ => exact h
  | _ => trivial

/-- An exchange of files is not one of the directories they are in. -/
theorem Volume.KeepsOrder.keepsLinks {s : Volume} (h : s.KeepsOrder r) : s.KeepsLinks r ∨
      ¬ (InodeType.symlink ≠ .symlink) ∧ ∃ link parent name new,
        r = .symlink link parent name new := by
  cases r with
  | symlink link parent name new => exact .inr ⟨fun hne => hne rfl, _, _, _, _, rfl⟩
  | rename parent name newparent newname flags =>
    refine .inl fun hex p hp q hq i hi j hj ha => .inr ?_
    obtain ⟨hif, hjf⟩ := (h p hp q hq).2 i hi ha hex j hj
    have hne : ∀ {x y}, s.inodeType x ≠ .dir → s.inodeType y = .dir → x ≠ y := by
      rintro x y hx hy rfl
      exact hx hy
    exact ⟨⟨hne hif ha.2.2.1, hne hif ha.2.2.2.1⟩, hne hjf ha.2.2.1, hne hjf ha.2.2.2.1⟩
  | _ => exact .inl trivial

theorem Volume.Orderly.step {u : Userdata} {s s' : Volume} {ev : List Reply}
    (hs : s.Orderly) (hr : s.KeepsOrder r) (h : s.step u r = some (ev, s')) : s'.Orderly := by
  suffices hshaped : Shaped s.mounted s.mounted s' by
    obtain ⟨c, hc⟩ := hshaped.held
    exact ⟨by rw [hc.mount]; exact hshaped, hs.counted.step hr.keepsLinks h⟩
  have hs := hs.toShaped
  cases r with
  | mkdir => exact hs.bitbucketMkdir hr.1 hr.2.2 hr.2.1 _ _ h
  | create => exact hs.bitbucketCreate hr.1 hr.2.2 hr.2.1 _ _ h
  | symlink => exact hs.bitbucketSymlink hr.1 hr.2.2 hr.2.1 _ _ h
  | link => exact hs.bitbucketLink hr.2 hr.1 _ _ h
  | rename => exact hs.bitbucketRename hr _ _ h
  | unlink => exact hs.bitbucketUnlink hr _ _ h
  | rmdir => exact hs.bitbucketRmdir hr _ _ h
  | _ =>
    have hq := quiet_step (g := s.mounted) (fun r hr i => if_neg hr) id h
    obtain ⟨c, hc⟩ := hs.held
    exact ⟨hq.1.shape hs.shape, hq.2 _ c hs.shape.linksBack hr.plusListed hc⟩

section Mount

variable {s s' : Volume} {p d : Nat} {name : Name} {u : Unit}

theorem shape_createMagic {new : NewInode} (h : s.names.Shape) (hp : s.names.child p dot = some p)
    (hname : Proper name) (hx : createMagic p name new s = some (d, s')) :
    s'.names.Shape ∧ s'.names.child p dot = some p ∧ s'.names.child d dot = some d := by
  obtain ⟨d', s1, hc, hx⟩ := bind_inv hx
  have hx := modify_bind_inv hx
  obtain ⟨rfl, rfl⟩ := pure_inv hx
  obtain ⟨rfl, -, hfree, hn⟩ := names_createDirectory (Nat.ne_of_lt h.root_lt) hc
  have hne : p ≠ s.next := Nat.ne_of_lt (h.used _ _ _ hp).1
  have hshape := h.mkdir hp hname (hfree hne)
  have hself : (s.names.mkdir p name).child s.next dot = some s.next := mkdir_child_self hne
  have hold : (s.names.mkdir p name).child p dot = some p := by
    rw [mkdir_child_old hne fun he => hname.1 he.2.symm]
    exact hp
  rw [← hn] at hshape hself hold
  refine ⟨hshape.congr rfl rfl rfl (fun i _ => ?_) (Nat.le_refl _), hold, hself⟩
  show inodeType (s1.setInode s.next fun n =>
    { n with mode := n.mode - (n.mode &&& 0o222) }) i = .dir ↔ s1.inodeType i = .dir
  rw [inodeType_setInode fun _ => by rfl]

theorem shape_createMagics {names : List Name} : ∀ {news : List NewInode}
    {s : Volume}, s.names.Shape → s.names.child p dot = some p →
    (∀ n ∈ names, Proper n) → createMagics p names news s = some (u, s') →
    s'.names.Shape := by
  induction names with
  | nil =>
    intro news s h _ _ hx
    obtain ⟨-, rfl⟩ := pure_inv hx
    exact h
  | cons name names ih =>
    intro news s h hp hnames hx
    cases news with
    | nil =>
      obtain ⟨-, rfl⟩ := pure_inv hx
      exact h
    | cons new news =>
      obtain ⟨d, s1, hm, hx⟩ := bind_inv hx
      obtain ⟨h1, hp1, -⟩ := shape_createMagic h hp (hnames name List.mem_cons_self) hm
      exact ih h1 hp1 (fun n hn => hnames n (List.mem_cons_of_mem _ hn)) hx

theorem orderly_bitbucketInit {root bitbucket : NewInode} {others : List NewInode}
    (hnew : ((root :: bitbucket :: others).map NewInode.ino).Nodup)
    (h : bitbucketInit root bitbucket others .empty = some (u, s)) : s.Orderly := by
  have hbalanced := balanced_bitbucketInit hnew h
  have hcounted : s.Counted (· ≠ .symlink) := counted_empty.edits
    (Edits.bitbucketInit root bitbucket others _ _ _ h)
  refine ⟨⟨?_, 0, by rw [add_zero]; exact hbalanced.toHeld⟩, hcounted⟩
  obtain ⟨_, s1, hroot, h⟩ := bind_inv h
  have h := get_bind_inv h
  obtain ⟨p, s2, hmagic, h⟩ := bind_inv h
  have h1 := (names_mountRoot hroot).shape
  obtain ⟨h2, -, hp⟩ := shape_createMagic h1 h1.rootSelf (by decide) hmagic
  exact shape_createMagics h2 hp (by decide) h

end Mount

/-- Every state that a mounted volume reaches by requests that keep it
orderly. -/
theorem orderly_run {u : Userdata} {root bitbucket : NewInode} {others : List NewInode}
    {s s' : Volume} {rs : List Request} {tr : List Reply}
    (hnew : ((root :: bitbucket :: others).map NewInode.ino).Nodup)
    (hinit : bitbucketInit root bitbucket others .empty = some ((), s))
    (hrun : Machine.run (Volume.step u) s rs = some (tr, s'))
    (hrs : Machine.Along (Volume.step u) KeepsOrder s rs) : s'.Orderly :=
  Machine.run_invariant (fun _ _ _ _ hs hr h => Orderly.step hs hr h)
    (orderly_bitbucketInit hnew hinit) hrun hrs

end Finesse.Bitbucket
