import Finesse.Bitbucket.Balance
import Finesse.Bitbucket.Tree

/-!
# Requests that leave the names alone

All but seven of the handlers change neither a directory entry nor a parent
pointer nor a count of links. What they do to references is said here without
a condition: a handler may leave references behind, but it never drops one
that it does not hold, and so never takes one from a directory entry, a
parent pointer, the kernel or the mounted volume.

`Holds m g s` says that a handler has the references `g` in hand. What else
the accounts show is either kept or left behind for good.
-/

namespace Finesse.Bitbucket

open Prog Volume
open Ledger (owe)

/-- Nothing changes that names, parents and counts of links are made of. -/
structure Volume.Quiet (s s' : Volume) : Prop where
  entries : s'.entries = s.entries
  parent : s'.parent = s.parent
  root : s'.root = s.root
  magic : s'.magic = s.magic
  next : s'.next = s.next
  inodeType : s'.inodeType = s.inodeType
  nlink : ∀ i, (s'.inode i).nlink = (s.inode i).nlink
  epoch : ∀ i, (s.inode i).epoch ≤ (s'.inode i).epoch

/-- A listing takes a reference and moves the epoch of the directory on. -/
theorem enumerate_inv {s s' : Volume} {d nameOffset size off : Nat}
    {out : List (DirEntry × Nat) × Int} (h : enumerate d nameOffset size off s = some (out, s')) :
    ∃ s1 x, bitbucketInitalizeDirectoryEnumerationContext d s = some ((), s1) ∧
      Enumeration.readPage nameOffset size off
        (.of (s1.entries d) (s1.inode d).epoch) = some (out, x) ∧
      s' = s1.setInode d fun n => { n with epoch := x.epoch } := by
  obtain ⟨_, s1, hi, h⟩ := bind_inv h
  have h := get_bind_inv h
  cases hpage : Enumeration.readPage nameOffset size off
      (.of (s1.entries d) (s1.inode d).epoch) with
  | none =>
    rw [hpage] at h
    exact (assert_bind_inv h).1.elim
  | some p =>
    rw [hpage] at h
    dsimp only at h
    have h := modify_bind_inv h
    obtain ⟨rfl, rfl⟩ := pure_inv h
    exact ⟨s1, p.2, hi, hpage, rfl⟩

namespace Volume.Quiet

variable {s s' s'' : Volume}

theorem refl (s : Volume) : s.Quiet s :=
  ⟨rfl, rfl, rfl, rfl, rfl, rfl, fun _ => rfl, fun _ => Nat.le_refl _⟩

theorem trans (h : s.Quiet s') (h' : s'.Quiet s'') : s.Quiet s'' where
  entries := h'.entries.trans h.entries
  parent := h'.parent.trans h.parent
  root := h'.root.trans h.root
  magic := h'.magic.trans h.magic
  next := h'.next.trans h.next
  inodeType := h'.inodeType.trans h.inodeType
  nlink i := (h'.nlink i).trans (h.nlink i)
  epoch i := Nat.le_trans (h.epoch i) (h'.epoch i)

theorem child (h : s.Quiet s') : s'.child = s.child := by
  funext d n
  rw [Volume.child, Volume.child, h.entries]

theorem linksBack (h : s.Quiet s') (hb : s.names.LinksBack) : s'.names.LinksBack := by
  intro d p hp
  have hp : s.parent d = some p := (congrFun h.parent d).symm.trans hp
  obtain ⟨hc, hd⟩ := hb d p hp
  refine ⟨(congrFun (congrFun h.child d) dotdot).trans hc, ?_⟩
  exact (congrFun h.inodeType p).trans hd

theorem of_inode (he : s'.entries = s.entries) (hp : s'.parent = s.parent) (hr : s'.root = s.root)
    (hm : s'.magic = s.magic) (hn : s'.next = s.next) (hi : s'.inode = s.inode) : s.Quiet s' where
  entries := he
  parent := hp
  root := hr
  magic := hm
  next := hn
  inodeType := by
    funext i
    rw [Volume.inodeType, Volume.inodeType, hi]
  nlink i := by rw [hi]
  epoch i := by rw [hi]

theorem setInode {i : Nat} {f : Inode → Inode} (ht : ∀ k, (f k).inodeType = k.inodeType)
    (hn : ∀ k, (f k).nlink = k.nlink) (he : (s.inode i).epoch ≤ (f (s.inode i)).epoch) :
    s.Quiet (s.setInode i f) := by
  refine ⟨rfl, rfl, rfl, rfl, rfl, inodeType_setInode ht, fun j => ?_, fun j => ?_⟩
  all_goals
    by_cases hj : j = i
    · subst hj
      simp [Volume.setInode, hn, he]
    · simp [Volume.setInode, hj]

theorem tick (s : Volume) (i : Nat) : s.Quiet (s.tick i) :=
  setInode (fun _ => rfl) (fun _ => rfl) (Nat.le_succ _)

section Functions

variable {i : Nat} {r : Reason} {u : Unit}

theorem reference (h : bitbucketReferenceInode i r s = some (u, s')) : s.Quiet s' := by
  rw [(reference_inv h).2.2.2]
  exact .of_inode rfl rfl rfl rfl rfl rfl

theorem dereference {b : Nat}
    (h : bitbucketDereferenceInode i r b s = some (u, s')) : s.Quiet s' := by
  obtain ⟨-, -, -, hs⟩ := dereference_inv h
  split at hs
  · rw [hs.2]
    exact .of_inode rfl rfl rfl rfl rfl rfl
  · rw [hs]
    exact .of_inode rfl rfl rfl rfl rfl rfl

theorem dropLookup (h : dropLookup i s = some (u, s')) : s.Quiet s' := dereference h

theorem lockInode (h : bitbucketLockInode i s = some (u, s')) : s.Quiet s' := by
  rw [(lockInode_inv h).2]
  exact .tick s i

theorem replyEntry {reply : Reply} (h : replyEntry i s = some (reply, s')) : s.Quiet s' := by
  have h := get_bind_inv (modify_bind_inv h)
  obtain ⟨-, rfl⟩ := pure_inv h
  exact .of_inode rfl rfl rfl rfl rfl rfl

theorem looked {o : Option Nat} (h : s.Looked s' o) : s.Quiet s' := by
  cases o with
  | none => exact (show s = s' from h) ▸ .refl s
  | some i =>
    rw [h.2]
    exact .of_inode rfl rfl rfl rfl rfl rfl

theorem calls (s0 : Volume) : Calls fun _ s => s0.Quiet s where
  add h _ := h.trans (.of_inode rfl rfl rfl rfl rfl rfl)
  dereference h hx := h.trans (dereference hx)
  setKernel _ h := h.trans (.of_inode rfl rfl rfl rfl rfl rfl)

end Functions

end Volume.Quiet

theorem Passes.quiet {g g' : Account} {s s' : Volume} (h : Passes g s g' s') : s.Quiet s' :=
  h.keeps (Quiet.calls s) (.refl s)

/-! ## References in hand -/

/-- The references `g` are in hand, besides others that nobody will drop. -/
def Holds (m g : Account) (s : Volume) : Prop := ∃ c, Held m (g + c) s

namespace Holds

variable {m g e : Account} {s s' : Volume} {i b : Nat} {r : Reason} {u : Unit}

theorem leave (h : Holds m (g + e) s) : Holds m g s := by
  obtain ⟨c, hc⟩ := h
  rw [add_assoc] at hc
  exact ⟨_, hc⟩

theorem add (h : Holds m g s) (hi : s.live i = true) :
    Holds m (g + owe r i 1) (s.addReferences i r 1) := by
  obtain ⟨c, hc⟩ := h
  refine ⟨c, ?_⟩
  rw [add_right_comm]
  exact hc.add hi

theorem dereference (h : Holds m (g + owe r i b) s) (hb : s.names.LinksBack)
    (hx : bitbucketDereferenceInode i r b s = some (u, s')) : Holds m g s' := by
  obtain ⟨c, hc⟩ := h
  rw [add_right_comm] at hc
  exact ⟨c, hc.dereference hb.parent_eq_none hx⟩

variable {f : Kernel → Kernel}

theorem giveKernel (hf : ∀ k, (f k).owes i = k.owes i + e)
    (h : Holds m (g + e) s) : Holds m g (s.setKernel i f) := by
  obtain ⟨c, hc⟩ := h
  rw [add_right_comm] at hc
  exact ⟨c, hc.giveKernel hf⟩

theorem setInode {f : Inode → Inode} (h : Holds m g s) (ht : ∀ k, (f k).inodeType = k.inodeType)
    (hi : ∀ k, (f k).ino = k.ino) : Holds m g (s.setInode i f) := by
  obtain ⟨c, hc⟩ := h
  exact ⟨c, hc.setInode ht hi⟩

/-- The kernel gives something back. What it was never given comes out of
references that were left behind. -/
theorem takeBack (hg : g r i = 0) (hclaim : s.claimed r i = (s.kernel i).owes i r i)
    (hf : (f (s.kernel i)).owes i + owe r i (min b ((s.kernel i).owes i r i)) = (s.kernel i).owes i)
    (h : Holds m g s) (hb : s.names.LinksBack)
    (hx : bitbucketDereferenceInode i r b s = some (u, s')) : Holds m g (s'.setKernel i f) := by
  obtain ⟨c, hc⟩ := h
  obtain ⟨hlive, -, hle, -⟩ := dereference_inv hx
  have hreason := hc.counts.reasons i r hlive
  simp only [Ledger.add_apply, hg, hclaim] at hreason
  obtain ⟨d, rfl⟩ := Ledger.exists_add_owe (show b - (s.kernel i).owes i r i ≤ c r i by omega)
  rw [← add_assoc] at hc
  exact ⟨d, hc.takeBack hf hb.parent_eq_none hx⟩

end Holds

/-! ## Listing with attributes

For an entry that is the directory itself or its parent readdirplus takes no
reference, whatever its name; the kernel goes by the name. -/

/-- The kernel does not take the entry `e` of `d` for a lookup unless there is
a reference for it. -/
def Volume.Listed (s : Volume) (d : Nat) (e : DirEntry) : Prop :=
  s.inodeType e.inode = .dir → d = e.inode ∨ s.parent d = some e.inode → ¬ Proper e.name

instance (s : Volume) (d : Nat) (e : DirEntry) : Decidable (s.Listed d e) :=
  inferInstanceAs (Decidable (_ → _))

theorem Volume.Quiet.listed {s s' : Volume} (h : s.Quiet s') {d : Nat}
    {e : DirEntry} (he : s.Listed d e) : s'.Listed d e := by
  rw [Listed, h.inodeType, h.parent]
  exact he

/-- What holds after a part of a request to the volume `s0`. If `A` says enough
about `s0`, the references `g` are in hand. -/
structure Carried (A : Prop) (m : Account) (s0 : Volume) (g : Account)
    (s : Volume) : Prop where
  quiet : s0.Quiet s
  holds : A → Holds m g s

namespace Carried

variable {A : Prop} {m g e : Account} {s0 s : Volume} {d : Nat}

theorem leave (h : Carried A m s0 (g + e) s) : Carried A m s0 g s :=
  ⟨h.quiet, fun ha => (h.holds ha).leave⟩

variable (hA : A → s0.names.LinksBack)
include hA

theorem calls : QuietCalls (Carried A m s0) where
  add h hl := ⟨h.quiet.trans (.of_inode rfl rfl rfl rfl rfl rfl), fun ha => (h.holds ha).add hl⟩
  dereference h hx := ⟨h.quiet.trans (.dereference hx),
    fun ha => (h.holds ha).dereference (h.quiet.linksBack (hA ha)) hx⟩
  setKernel hf h := ⟨h.quiet.trans (.of_inode rfl rfl rfl rfl rfl rfl),
    fun ha => (h.holds ha).giveKernel hf⟩
  setInode ht hi hn he h := ⟨h.quiet.trans (.setInode ht hn he),
    fun ha => (h.holds ha).setInode ht hi⟩
  takeBack hg hclaim hf h hx :=
    ⟨(h.quiet.trans (.dereference hx)).trans (.of_inode rfl rfl rfl rfl rfl rfl),
      fun ha => (h.holds ha).takeBack hg (hclaim _) (hf _) (h.quiet.linksBack (hA ha)) hx⟩

theorem enumerate {nameOffset size off : Nat} (h : Carried A m s0 g s) :
    Ends (enumerate d nameOffset size off) s fun out s' =>
      Carried A m s0 g s' ∧ ∀ e ∈ out.1, e.1 ∈ s0.entries d := by
  intro out s' hx
  obtain ⟨s1, x, hi, hpage, rfl⟩ := enumerate_inv hx
  have hinit : Ends (bitbucketInitalizeDirectoryEnumerationContext d) s
      fun _ s' => Carried A m s0 g s' := by
    refine .get_bind (.assert_bind fun _ => (calls hA).reference h fun s2 h => ?_)
    intro _ s' hx
    obtain ⟨-, rfl⟩ := assert_inv hx
    exact h.leave
  have h1 := hinit _ _ hi
  refine ⟨(calls hA).setInode (fun _ => rfl) (fun _ => rfl) (fun _ => rfl)
    (Enumeration.Follows.readPage _ _ _ hpage).epoch h1, fun e he => ?_⟩
  rw [← h1.quiet.entries]
  exact Enumeration.mem_of_readPage hpage e he

theorem returnPlus {es : List DirEntry}
    (hes : A → ∀ e ∈ es, s0.Listed d e) : ∀ {s : Volume}, Carried A m s0 g s →
      Ends (returnPlus d es) s fun _ s' => Carried A m s0 g s' := by
  induction es with
  | nil => exact fun h => .pure h
  | cons e es ih =>
    intro s h
    have ih := @ih fun ha e he => hes ha e (List.mem_cons_of_mem _ he)
    refine Ends.bind (R := fun _ s1 => Ends (givePlus e) s1 fun _ s' =>
      Carried A m s0 g s') ?_ fun _ _ hgive => hgive.bind fun _ _ h => ih h
    refine .get_bind (.ite (fun _ u s1 hx => ?_) fun hown => .pure ?_)
    · obtain ⟨hlive, -, -, rfl⟩ := reference_inv hx
      have h := (calls hA).add (r := .fuseLookup) h hlive
      refine .ite (fun _ => .pure h.leave) fun _ _ s' hx => ?_
      rw [modify_inv hx]
      exact (calls hA).setKernel (fun k => k.owes_lookups e.inode 1) h
    · refine .ite (fun _ => .pure h) fun hname _ s' hx => ?_
      rw [modify_inv hx]
      refine ⟨h.quiet.trans (.of_inode rfl rfl rfl rfl rfl rfl), fun ha => ?_⟩
      simp only [not_or, not_and, not_not] at hown hname
      refine absurd hname (h.quiet.listed (hes ha e List.mem_cons_self) hown.1 ?_)
      by_cases hd : d = e.inode
      · exact .inl hd
      · exact .inr (hown.2 hd)

end Carried

/-! ## All of them -/

/-- A readdirplus request lists a directory in which only `.` and `..` name
the directory itself and its parent. -/
def Volume.PlusListed (s : Volume) : Request → Prop
  | .readdirplus ino _ _ =>
    ∀ i ∈ s.resolve ino, ∀ e ∈ s.entries i, s.Listed i e
  | _ => True

/-- A request that does not edit names leaves them alone, and drops only
references that it holds or that the kernel gives back. -/
theorem quiet_step {u : Userdata} {g : Account} {s s' : Volume} {r : Request} {ev : List Reply}
    (hg : ∀ r, r ≠ .lookup → ∀ i, g r i = 0) (hr : ¬ r.EditsNames)
    (h : s.step u r = some (ev, s')) :
    s.Quiet s' ∧ ∀ m c, s.names.LinksBack → s.PlusListed r → Held m (g + c) s →
      ∃ c', Held m (g + c') s' := by
  suffices hcarried : ∀ m c, Carried (s.names.LinksBack ∧ s.PlusListed r ∧
      Held m (g + c) s) m s g s' from
    ⟨(hcarried 0 0).quiet, fun m c hb hl hh => (hcarried m c).holds ⟨hb, hl, hh⟩⟩
  intro m c
  have hP : QuietCalls (Carried (s.names.LinksBack ∧ s.PlusListed r ∧
    Held m (g + c) s) m s) := Carried.calls And.left
  have h0 : Carried (s.names.LinksBack ∧ s.PlusListed r ∧ Held m (g + c) s) m s g s :=
    ⟨.refl s, fun h => ⟨c, h.2.2⟩⟩
  cases r with
  | mkdir | create | symlink | link | rename | unlink | rmdir =>
    exact absurd trivial hr
  | opendir => exact hP.bitbucketOpendir h0 (fun _ _ _ _ h => h.leave) _ _ h
  | readdir =>
    exact hP.bitbucketReaddir h0 (fun _ _ _ _ _ _ h _ _ hx =>
      (h.enumerate And.left _ _ hx).1) _ _ h
  | readdirplus =>
    refine hP.bitbucketReaddirplus h0 (fun i c r hi _ _ h out s1 hx => ?_) _ _ h
    obtain ⟨h, hmem⟩ := h.enumerate And.left _ _ hx
    refine h.returnPlus And.left fun ha e he => ?_
    obtain ⟨p, hp, rfl⟩ := List.mem_map.mp he
    exact ha.2.1 i hi p.1 (hmem p hp)
  | write => exact hP.bitbucketWrite h0 (fun _ _ _ _ _ h => h.leave) _ _ h
  | writeBuf => exact hP.bitbucketWriteBuf h0 (fun _ _ _ _ _ h => h.leave) _ _ h
  | _ => exact hP.handle h0 hg (by exact trivial) _ _ h

end Finesse.Bitbucket
