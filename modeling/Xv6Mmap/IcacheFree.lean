import Xv6Mmap.Icache

/-!
# Freeing an inode (`fs.c:331-352`)

`iput` reads `ref`, releases the cache lock, frees the inode on disk and only then drops its
reference, so other processes can run in between. What they can do to the inode depends on who can
still find it: nobody, if its last link is gone and entries name only inodes with links (`Linked`).
`Safe` is the invariant under that condition: a process about to free an inode has the only
reference, and an inode that is free on disk, or that `ialloc` has just marked, is in the cache of
nobody but the process that freed it.

**`inode_cache_coherent`**: in every run by any number of processes a slot in use is the only one
with its inode and keeps it; and `iput` frees an inode only if it has no links and no other process
has a reference, provided that no `iget` through a directory entry names an inode without links.

An unlinked directory that is still some process's working directory keeps its entry `..`, and the
parent may have lost its last link too. `dead_parent_freed_while_referenced` is the run in which
that process asks for the parent between the moment `iput` reads `ref` and the moment it frees it.
-/

namespace Xv6Mmap

open Lib
open Function (update update_self update_of_ne update_eq_self)

namespace Icache

variable {ι : Type} [Fintype ι] [DecidableEq ι] {s s' : Icache ι}

/-! ## As long as entries name inodes with links -/

/-- What holds besides if no `iget` through a directory entry names an inode without links. -/
structure Safe (s : Icache ι) : Prop where
  last : ∀ i a, (s.proc i).pc = .freeing a → (s.inode a).ref = 1
  /-- A valid copy is that of an inode in use, but for the moment in which it is being freed. -/
  copy : ∀ a, 0 < (s.inode a).ref → (s.inode a).valid = true →
    ((s.inode a).copy = s.dinode (s.inode a).key ∧ (s.inode a).copy.type ≠ none) ∨
      ∃ i, (s.proc i).pc = .clearing a
  /-- Only the process that freed an inode can have a free inode in the cache. -/
  gone : ∀ a, 0 < (s.inode a).ref → (s.dinode (s.inode a).key).type = none →
    (s.inode a).ref = 1 ∧ ∃ i, (s.proc i).pc.freed a = true
  marked : ∀ i key, (s.proc i).pc = .allocated key →
    (s.dinode key).nlink = 0 ∧ (s.dinode key).type ≠ none
  /-- The same after `ialloc` has found it. -/
  recycled : ∀ i key a, (s.proc i).pc = .allocated key → 0 < (s.inode a).ref →
    (s.inode a).key = key → (s.inode a).ref = 1 ∧ ∃ j, (s.proc j).pc.freed a = true
  allocates : ∀ i j key, (s.proc i).pc = .allocated key → (s.proc j).pc = .allocated key → i = j

omit [Fintype ι] [DecidableEq ι] in
theorem safe_iinit (dinode : Nat × Nat → LinkInfo) (dirent : Nat × Nat → List Nat) :
    (iinit ι dinode dirent).Safe where
  last _ _ hpc := by cases hpc
  copy _ ha := absurd ha (lt_irrefl 0)
  gone _ ha := absurd ha (lt_irrefl 0)
  marked _ _ hpc := by cases hpc
  recycled _ _ _ hpc := by cases hpc
  allocates _ _ _ hpc := by cases hpc

omit [DecidableEq ι] in
/-- A process about to free a slot is the only one with a reference, and the inode has no links. -/
theorem Safe.freeing (h : s.Safe) (hb : s.Base) {a : Fin ninode} {i : ι}
    (hpc : (s.proc i).pc = .freeing a) :
    (s.inode a).copy.nlink = 0 ∧ (s.dinode (s.inode a).key).nlink = 0 ∧
      ∀ j, j ≠ i → (s.proc j).refs a = 0 := by
  obtain ⟨hrefs, hholder, hvalid, hnlink⟩ := hb.fits hpc
  refine ⟨hnlink, ?_, fun j hj => ?_⟩
  · obtain hcopy | ⟨j, hj⟩ := h.copy a (hb.ref_pos hrefs) hvalid
    · rw [← hcopy.1]
      exact hnlink
    · obtain rfl := Option.some.inj ((hb.fits hj).2.symm.trans hholder)
      rw [hpc] at hj
      cases hj
  · by_contra hne
    exact hj (hb.sole (h.last i a hpc) (Nat.pos_of_ne_zero hne) hrefs)

omit [DecidableEq ι] in
/-- A process that runs and has a reference to `a`: nobody is freeing `a`, the inode is in use and
`ialloc` has not just marked it. -/
theorem Safe.held (h : s.Safe) (hb : s.Base) {i : ι} {a : Fin ninode}
    (hpc : (s.proc i).pc = .running) (hrefs : 0 < (s.proc i).refs a) :
    (s.dinode (s.inode a).key).type ≠ none ∧ (∀ j, (s.proc j).pc ≠ .freeing a) ∧
      ∀ j, (s.proc j).pc ≠ .allocated (s.inode a).key := by
  have hnot : ¬ ((s.inode a).ref = 1 ∧ ∃ j, (s.proc j).pc.freed a = true) := by
    rintro ⟨hone, j, hj⟩
    obtain rfl := hb.sole hone (hb.refs_pos_of_freed hj) hrefs
    rw [hpc] at hj
    cases hj
  refine ⟨fun hnone => hnot (h.gone a (hb.ref_pos hrefs) hnone), fun j hj => ?_, fun j hj =>
    hnot (h.recycled j _ a hj (hb.ref_pos hrefs) rfl)⟩
  have hji : i ≠ j := by
    rintro rfl
    rw [hpc] at hj
    cases hj
  have := (h.freeing hb hj).2.2 i hji
  omega

omit [Fintype ι] in
/-- Slot `a` becomes `x` and process `i` becomes `p`. The disk changes at most for the inode in that
slot, nobody comes to have an inode marked, and `i` does not forget what it has freed elsewhere. -/
theorem Safe.change (h : s.Safe) {t : Icache ι} {i : ι} {p : IcacheProc} {a : Fin ninode}
    {x : CachedInode ι} (hinode : t.inode = update s.inode a x) (hproc : t.proc = update s.proc i p)
    (halloc : ∀ key, p.pc = .allocated key → (s.proc i).pc = .allocated key)
    (hdisk : ∀ b, b ≠ a → 0 < (s.inode b).ref →
      t.dinode (s.inode b).key = s.dinode (s.inode b).key)
    (hmarked : ∀ j key, (s.proc j).pc = .allocated key → t.dinode key = s.dinode key)
    (hlast : ∀ b, p.pc = .freeing b → (update s.inode a x b).ref = 1)
    (hone : ∀ j, j ≠ i → (s.proc j).pc = .freeing a → x.ref = 1)
    (hcopy : 0 < x.ref → x.valid = true → (x.copy = t.dinode x.key ∧ x.copy.type ≠ none) ∨
      ∃ j, (t.proc j).pc = .clearing a)
    (hgone : 0 < x.ref → ((t.dinode x.key).type = none ∨ ∃ j, (s.proc j).pc = .allocated x.key) →
      x.ref = 1 ∧ ∃ j, (t.proc j).pc.freed a = true)
    (hkeep : ∀ b, b ≠ a → ((s.proc i).pc = .clearing b → p.pc = .clearing b) ∧
      ((s.proc i).pc.freed b = true → p.pc.freed b = true)) : t.Safe := by
  have hpc : ∀ {j key}, (t.proc j).pc = .allocated key → (s.proc j).pc = .allocated key := by
    intro j key hj
    rw [hproc] at hj
    by_cases hji : j = i
    · subst hji
      rw [update_self] at hj
      exact halloc key hj
    · rwa [update_of_ne hji] at hj
  have hfreed : ∀ {b}, b ≠ a → (∃ j, (s.proc j).pc.freed b = true) →
      ∃ j, (t.proc j).pc.freed b = true := by
    intro b hb
    rw [hproc]
    exact exists_pc_update (·.freed b = true) (hkeep b hb).2
  constructor
  case last =>
    intro j b hj
    rw [hproc] at hj
    rw [hinode]
    by_cases hji : j = i
    · subst hji
      rw [update_self] at hj
      exact hlast b hj
    · rw [update_of_ne hji] at hj
      by_cases hb : b = a
      · subst hb
        rw [update_self]
        exact hone j hji hj
      · rw [update_of_ne hb]
        exact h.last j b hj
  case copy =>
    intro b
    rw [hinode]
    by_cases hb : b = a
    · subst hb
      rw [update_self]
      exact hcopy
    · rw [update_of_ne hb]
      intro hpos hvalid
      rw [hdisk b hb hpos, hproc]
      exact (h.copy b hpos hvalid).imp_right
        (exists_pc_update (· = .clearing b) (hkeep b hb).1)
  case gone =>
    intro b
    rw [hinode]
    by_cases hb : b = a
    · subst hb
      rw [update_self]
      exact fun hpos hnone => hgone hpos (.inl hnone)
    · rw [update_of_ne hb]
      exact fun hpos hnone => (h.gone b hpos (hdisk b hb hpos ▸ hnone)).imp_right (hfreed hb)
  case marked =>
    intro j key hj
    rw [hmarked j key (hpc hj)]
    exact h.marked j key (hpc hj)
  case recycled =>
    intro j key b hj
    rw [hinode]
    by_cases hb : b = a
    · subst hb
      rw [update_self]
      rintro hpos rfl
      exact hgone hpos (.inr ⟨j, hpc hj⟩)
    · rw [update_of_ne hb]
      exact fun hpos hk => (h.recycled j key b (hpc hj) hpos hk).imp_right (hfreed hb)
  case allocates => exact fun j k key hj hk => h.allocates j k key (hpc hj) (hpc hk)

omit [Fintype ι] in
/-- A process goes on inside `ilock` or `iput`: it does not forget what it has freed, and it may
write the copy in slot `a` as long as it is then that of the disk. -/
theorem Safe.move (h : s.Safe) {i : ι} (pc : IcachePc) {a : Fin ninode} {x : CachedInode ι}
    (hkey : x.key = (s.inode a).key) (href : x.ref = (s.inode a).ref)
    (hlast : ∀ b, pc = .freeing b → (s.inode b).ref = 1)
    (hcopy : 0 < x.ref → x.valid = true → (x.copy = s.dinode x.key ∧ x.copy.type ≠ none) ∨
      ∃ j, ((s.goto i pc).proc j).pc = .clearing a)
    (hclear : ∀ b, (s.proc i).pc = .clearing b → b = a)
    (hfreed : ∀ b, (s.proc i).pc.freed b = true → pc.freed b = true)
    (halloc : ∀ key, pc ≠ .allocated key) :
    ((s.setInode a x).goto i pc).Safe := by
  refine h.change rfl rfl (fun key hp => absurd hp (halloc key)) (fun _ _ _ => rfl)
    (fun _ _ _ => rfl) (fun b hb => (update_ref href b).trans (hlast b hb))
    (fun j _ hj => href.trans (h.last j a hj)) hcopy ?_
    fun b hb => ⟨fun hc => absurd (hclear b hc) hb, hfreed b⟩
  rw [href, hkey]
  intro hpos hor
  have hold := hor.elim (h.gone a hpos) fun ⟨j, hj⟩ => h.recycled j _ a hj hpos rfl
  exact hold.imp_right (exists_pc_update (·.freed a = true) (hfreed a))

omit [Fintype ι] in
/-- A process that is not freeing an inode goes on inside `ilock` or `iput`, and may take or release
the lock of slot `a`. -/
theorem Safe.moveLock (h : s.Safe) {i : ι} (pc : IcachePc) (a : Fin ninode) (holder : Option ι)
    (hlast : ∀ b, pc = .freeing b → (s.inode b).ref = 1)
    (hclear : ∀ b, (s.proc i).pc ≠ .clearing b)
    (hfreed : ∀ b, (s.proc i).pc.freed b = true → pc.freed b = true)
    (halloc : ∀ key, pc ≠ .allocated key) :
    ((s.setInode a { s.inode a with holder := holder }).goto i pc).Safe :=
  h.move pc rfl rfl hlast
    (fun hpos hvalid => (h.copy a hpos hvalid).imp_right
      (exists_pc_update (· = .clearing a) fun hc => absurd hc (hclear a)))
    (fun b hb => absurd hb (hclear b)) hfreed halloc

omit [Fintype ι] in
theorem Safe.goto (h : s.Safe) {i : ι} (pc : IcachePc)
    (hlast : ∀ b, pc = .freeing b → (s.inode b).ref = 1)
    (hclear : ∀ b, (s.proc i).pc ≠ .clearing b)
    (hfreed : ∀ b, (s.proc i).pc.freed b = true → pc.freed b = true)
    (halloc : ∀ key, pc ≠ .allocated key) : (s.goto i pc).Safe := by
  have hsame : s.setInode 0 { s.inode 0 with holder := (s.inode 0).holder } = s := by
    simp only [setInode, update_eq_self]
  have hmoved := h.moveLock pc 0 (s.inode 0).holder hlast hclear hfreed halloc
  rwa [hsame] at hmoved

omit [Fintype ι] in
theorem Safe.acquiresleep (h : s.Safe) {i : ι} {a : Fin ninode} {pc : IcachePc}
    (hold : (s.proc i).pc = .locking a ∨ (s.proc i).pc = .putting a)
    (hpc : pc = .loading a ∨ pc = .testing a) : (s.acquiresleep i a pc).Safe := by
  unfold Icache.acquiresleep
  cases ha : (s.inode a).holder with
  | some j => exact h
  | none =>
    refine h.moveLock pc a (some i) ?_ ?_ ?_ ?_
    · obtain rfl | rfl := hpc <;> exact nofun
    · obtain hold | hold := hold <;> rw [hold] <;> exact nofun
    · obtain hold | hold := hold <;> rw [hold] <;> exact nofun
    · obtain rfl | rfl := hpc <;> exact nofun

omit [Fintype ι] in
/-- A reference to an inode in use that nobody is freeing or has just marked. -/
theorem Safe.gain (h : s.Safe) (i : ι) {a : Fin ninode} {x : CachedInode ι} (n : Nat)
    (hsame : (x.valid = (s.inode a).valid ∧ x.copy = (s.inode a).copy ∧
        x.key = (s.inode a).key ∧ 0 < (s.inode a).ref) ∨ x.valid = false)
    (hfree : ∀ j, (s.proc j).pc ≠ .freeing a) (htype : (s.dinode x.key).type ≠ none)
    (halloc : ∀ j, (s.proc j).pc ≠ .allocated x.key) :
    ((s.setInode a x).setRefs i a n).Safe := by
  refine h.change rfl rfl (fun _ hp => hp) (fun _ _ _ => rfl) (fun _ _ _ => rfl) (fun b hb => ?_)
    (fun j _ hj => absurd hj (hfree j)) ?_ (fun _ hor => ?_) fun _ _ => ⟨id, id⟩
  · have hne : b ≠ a := by
      rintro rfl
      exact hfree i hb
    rw [update_of_ne hne]
    exact h.last i b hb
  · obtain ⟨hvalid, hcopy, hkey, hpos⟩ | hvalid := hsame
    · rw [hvalid, hcopy, hkey]
      exact fun _ hv => (h.copy a hpos hv).imp_right
        (exists_pc_update (· = .clearing a) id)
    · rw [hvalid]
      exact nofun
  · exact hor.elim (fun hnone => absurd hnone htype) fun ⟨j, hj⟩ => absurd hj (halloc j)

variable {key : Nat × Nat}

theorem Safe.iget (h : s.Safe) (hb : s.Base) {i : ι} (htype : (s.dinode key).type ≠ none)
    (hfree : ∀ j a, (s.proc j).pc = .freeing a → (s.inode a).key ≠ key)
    (halloc : ∀ j, (s.proc j).pc ≠ .allocated key) (hs : s.iget i key = .ok s') : s'.Safe := by
  obtain ⟨a, hpos, rfl, rfl⟩ | ⟨a, hzero, -, rfl⟩ := iget_cases hs
  · exact h.gain i _ (.inl ⟨rfl, rfl, rfl, hpos⟩) (fun j hj => hfree j a hj rfl) htype halloc
  · refine h.gain i _ (.inr rfl) (fun j hj => ?_) htype halloc
    have := hb.ref_pos (hb.fits hj).1
    omega

theorem Safe.iputDrop (h : s.Safe) (hb : s.Base) {i : ι} {a : Fin ninode} {freed : Bool}
    (hpc : (s.proc i).pc = .dropping a freed) : (s.iputDrop i a).Safe := by
  have hrefs : 0 < (s.proc i).refs a := (hb.fits hpc).1
  have hused := hb.ref_pos hrefs
  refine h.change rfl (iputDrop_proc i a) nofun (fun _ _ _ => rfl) (fun _ _ _ => rfl) nofun
    (fun j hj hfree => ?_) (fun _ hvalid => ?_) (fun hpos hor => ?_) fun b hba => ⟨?_, fun hf => ?_⟩
  · have := (h.freeing hb hfree).2.2 i hj.symm
    omega
  · rw [iputDrop_proc]
    refine (h.copy a hused hvalid).imp_right (exists_pc_update (· = .clearing a) fun hc => ?_)
    rw [hpc] at hc
    cases hc
  · -- the inode is not free: then this was the last reference
    have hone := (hor.elim (h.gone a hused) fun ⟨j, hj⟩ => h.recycled j _ a hj hused rfl).1
    simp only at hpos
    omega
  · rw [hpc]
    exact nofun
  · rw [hpc] at hf
    cases freed with
    | false => cases hf
    | true => exact absurd (by simpa [IcachePc.freed] using hf) hba

/-- The holder of the lock of a valid slot writes the inode, in the cache and on disk. -/
theorem Safe.write (h : s.Safe) (hb : s.Base) {i : ι} {a : Fin ninode} (copy : LinkInfo)
    (pc : IcachePc) (dirent : Nat × Nat → List Nat) (hholder : (s.inode a).holder = some i)
    (hcopy : copy.type ≠ none ∨ pc = .clearing a ∧ (s.inode a).ref = 1)
    (hlast : ∀ b, pc ≠ .freeing b) (hold : ∀ b, (s.proc i).pc.freed b = false)
    (halloc : ∀ key, pc ≠ .allocated key) :
    Safe ({ (s.setInode a { s.inode a with copy := copy }).setDinode (s.inode a).key copy with
      dirent := dirent }.goto i pc) := by
  have hused := hb.ref_pos (hb.holder i a hholder)
  -- an inode that `ialloc` has found is in the cache of whoever freed it, and that is not `i`
  have hmarked : ∀ {j key}, (s.proc j).pc = .allocated key → key ≠ (s.inode a).key := by
    rintro j key hj rfl
    obtain ⟨hone, k, hk⟩ := h.recycled j _ a hj hused rfl
    obtain rfl := hb.sole hone (hb.refs_pos_of_freed hk) (hb.holder i a hholder)
    rw [hold] at hk
    cases hk
  refine h.change rfl rfl (fun key hp => absurd hp (halloc key)) (fun b hba hpos => ?_)
    (fun j key hj => update_of_ne (hmarked hj) ..) (fun b hp => absurd hp (hlast b))
    (fun j _ hj => h.last j a hj) (fun _ _ => ?_) (fun _ hor => ?_) fun b _ => ⟨fun hc => ?_, ?_⟩
  · exact update_of_ne (fun he => hba (hb.unique b a hpos hused he)) ..
  · obtain htype | ⟨rfl, -⟩ := hcopy
    · exact .inl ⟨(show update s.dinode _ copy _ = copy from update_self ..).symm, htype⟩
    · exact .inr ⟨i, goto_pc_self ..⟩
  · obtain hnone | ⟨j, hj⟩ := hor
    · obtain htype | ⟨rfl, hone⟩ := hcopy
      · change (update s.dinode _ copy _).type = none at hnone
        rw [update_self] at hnone
        exact absurd hnone htype
      · exact ⟨hone, i, by rw [goto_pc_self]; simp [IcachePc.freed]⟩
    · exact absurd rfl (hmarked hj)
  · have := hold b
    simp [hc, IcachePc.freed] at this
  · rw [hold]
    rintro ⟨⟩

omit [Fintype ι] in
theorem Safe.ialloc (h : s.Safe) {i : ι} {type : FileType} (hpc : (s.proc i).pc = .running)
    (hnone : (s.dinode key).type = none) :
    (s.ialloc i key type).Safe := by
  have hdinode : ∀ k, k ≠ key →
      update s.dinode key ⟨some type, 0⟩ k = s.dinode k := fun k hk =>
    update_of_ne hk ..
  have hfreed : ∀ {b : Fin ninode}, (∃ j, (s.proc j).pc.freed b = true) →
      ∃ j, ((s.goto i (.allocated key)).proc j).pc.freed b = true :=
    exists_pc_update (·.freed _ = true) (by rw [hpc]; exact nofun)
  -- a process that was in `ialloc` before has another inode
  have hcase : ∀ {j k}, ((s.ialloc i key type).proc j).pc = .allocated k →
      j = i ∧ k = key ∨ (s.proc j).pc = .allocated k ∧ k ≠ key := by
    intro j k hj
    by_cases hji : j = i
    · subst hji
      rw [Icache.ialloc, goto_pc_self] at hj
      cases hj
      exact .inl ⟨rfl, rfl⟩
    · rw [Icache.ialloc, goto_proc_of_ne _ _ hji] at hj
      refine .inr ⟨hj, ?_⟩
      rintro rfl
      exact (h.marked j _ hj).2 hnone
  constructor
  case last => exact fun j b hj => h.last j b (pc_of_goto (s := s) hj nofun).2
  case copy =>
    intro b hpos hvalid
    obtain hcopy | hex := h.copy b hpos hvalid
    · have hne : (s.inode b).key ≠ key := by
        intro he
        rw [hcopy.1, he] at hcopy
        exact hcopy.2 hnone
      left
      show (s.inode b).copy = update s.dinode key ⟨some type, 0⟩ (s.inode b).key ∧ _
      rw [hdinode _ hne]
      exact hcopy
    · exact .inr (exists_pc_update (s := s) (· = .clearing b) (by rw [hpc]; exact nofun) hex)
  case gone =>
    intro b hpos hgone
    change (update s.dinode key ⟨some type, 0⟩ (s.inode b).key).type = none at hgone
    have hne : (s.inode b).key ≠ key := by
      intro he
      rw [he, update_self] at hgone
      cases hgone
    rw [hdinode _ hne] at hgone
    exact (h.gone b hpos hgone).imp_right hfreed
  case marked =>
    intro j k hj
    show (update s.dinode key ⟨some type, 0⟩ k).nlink = 0 ∧
      (update s.dinode key ⟨some type, 0⟩ k).type ≠ none
    obtain ⟨-, rfl⟩ | ⟨hj, hne⟩ := hcase hj
    · rw [update_self]
      exact ⟨rfl, nofun⟩
    · rw [hdinode k hne]
      exact h.marked j k hj
  case recycled =>
    intro j k b hj hpos hk
    change (s.inode b).key = k at hk
    obtain ⟨-, rfl⟩ | ⟨hj, -⟩ := hcase hj
    · exact (h.gone b hpos (by rw [hk]; exact hnone)).imp_right hfreed
    · exact (h.recycled j k b hj hpos hk).imp_right hfreed
  case allocates =>
    intro j j' k hj hj'
    obtain ⟨rfl, rfl⟩ | ⟨hj, hne⟩ := hcase hj
    · obtain ⟨rfl, -⟩ | ⟨-, hne⟩ := hcase hj'
      · rfl
      · exact absurd rfl hne
    · obtain ⟨-, rfl⟩ | ⟨hj', -⟩ := hcase hj'
      · exact absurd rfl hne
      · exact h.allocates j j' k hj hj'

/-- An `iget` through a directory entry is for an inode in use that has links, or to which the
process already has a reference. -/
def Linked (s : Icache ι) : IcacheAction ι → Prop
  | .igetEntry i dev _ inum =>
    ((s.dinode (dev, inum)).type ≠ none ∧ (s.dinode (dev, inum)).nlink ≠ 0) ∨
      ∃ a, 0 < (s.proc i).refs a ∧ (s.inode a).key = (dev, inum)
  | _ => True

instance (s : Icache ι) : DecidablePred s.Linked
  | .igetEntry i dev _ inum =>
    inferInstanceAs (Decidable (((s.dinode (dev, inum)).type ≠ none ∧
      (s.dinode (dev, inum)).nlink ≠ 0) ∨
      ∃ a, 0 < (s.proc i).refs a ∧ (s.inode a).key = (dev, inum)))
  | .igetHeld .. | .idup .. | .ilock .. | .acquiresleep .. | .ilockRead .. | .iunlock ..
  | .iput .. | .iputTest .. | .iputRef .. | .iputFree .. | .iputInvalid .. | .iputRelease ..
  | .iputDrop .. | .ialloc .. | .iallocGet .. | .setNlink .. | .setDirents .. => isTrue trivial

theorem Safe.igetHeld (h : s.Safe) (hb : s.Base) {i : ι} {a : Fin ninode}
    (hpc : (s.proc i).pc = .running) (hrefs : 0 < (s.proc i).refs a)
    (hs : s.iget i (s.inode a).key = .ok s') : s'.Safe := by
  obtain ⟨htype, hfree, halloc⟩ := h.held hb hpc hrefs
  refine h.iget hb htype (fun j b hj hkey => ?_) halloc hs
  obtain rfl := hb.unique b a (hb.ref_pos (hb.fits hj).1) (hb.ref_pos hrefs) hkey
  exact hfree j hj

theorem Safe.igetLinked (h : s.Safe) (hb : s.Base) {i : ι} (htype : (s.dinode key).type ≠ none)
    (hnlink : (s.dinode key).nlink ≠ 0) (hs : s.iget i key = .ok s') : s'.Safe := by
  refine h.iget hb htype (fun j a hj hkey => ?_) (fun j hj => hnlink (h.marked j key hj).1) hs
  apply hnlink
  rw [← hkey]
  exact (h.freeing hb hj).2.1

/-- The `iget` of `ialloc`: the inode it has marked is in no other process's hands. -/
theorem Safe.iallocGet (h : s.Safe) (hb : s.Base) {i : ι} (hpc : (s.proc i).pc = .allocated key)
    (hs : (s.goto i .running).iget i key = .ok s') :
    s'.Safe := by
  have hrun : (s.goto i .running).Safe :=
    h.goto .running nofun (by rw [hpc]; exact nofun) (by rw [hpc]; exact nofun) nofun
  refine hrun.iget (hb.goto .running trivial) (h.marked i key hpc).2 (fun j a hj hkey => ?_)
    (fun j hj => ?_) hs
  · have hj := (pc_of_goto hj nofun).2
    have hrefs := (hb.fits hj).1
    obtain ⟨hone, k, hk⟩ := h.recycled i key a hpc (hb.ref_pos hrefs) hkey
    obtain rfl := hb.sole hone (hb.refs_pos_of_freed hk) hrefs
    rw [hj] at hk
    cases hk
  · obtain ⟨hji, hj⟩ := pc_of_goto hj nofun
    exact hji (h.allocates j i key hj hpc)

variable {act : IcacheAction ι}

theorem Safe.step (h : s.Safe) (hb : s.Base) (hok : s.Linked act) (hs : s.step act = .ok s') :
    s'.Safe := by
  cases step_cases hs with
  | igetEntry hpc hnamed hs =>
    obtain ⟨htype, hnlink⟩ | ⟨a, hrefs, hkey⟩ := hok
    · exact h.igetLinked hb htype hnlink hs
    · rw [← hkey] at hs
      exact h.igetHeld hb hpc hrefs hs
  | igetHeld hpc hrefs hs => exact h.igetHeld hb hpc hrefs hs
  | idup hpc hrefs =>
    obtain ⟨htype, hfree, halloc⟩ := h.held hb hpc hrefs
    exact h.gain _ _ (.inl ⟨rfl, rfl, rfl, hb.ref_pos hrefs⟩) hfree htype halloc
  | ilock hpc hrefs => exact h.goto _ nofun (by rw [hpc]; exact nofun) (by rw [hpc]; exact nofun) nofun
  | ilockAcquire hpc => exact h.acquiresleep (.inl hpc) (.inl rfl)
  | iputAcquire hpc => exact h.acquiresleep (.inr hpc) (.inr rfl)
  | ilockValid hpc hvalid =>
    exact h.goto _ nofun (by rw [hpc]; exact nofun) (by rw [hpc]; exact nofun) nofun
  | ilockRead hpc htype =>
    exact h.move .running rfl rfl nofun (fun _ _ => .inl ⟨rfl, htype⟩) (by rw [hpc]; exact nofun)
      (by rw [hpc]; exact nofun) nofun
  | @iunlock i a hpc hholder =>
    have hmoved := h.moveLock (i := i) .running a none nofun (by rw [hpc]; exact nofun)
      (by rw [hpc]; exact nofun) nofun
    rwa [goto_eq_self (by exact hpc)] at hmoved
  | iput hpc hrefs => exact h.goto _ nofun (by rw [hpc]; exact nofun) (by rw [hpc]; exact nofun) nofun
  | iputTest hpc hvalid hnlink =>
    exact h.goto _ nofun (by rw [hpc]; exact nofun) (by rw [hpc]; exact nofun) nofun
  | iputLinked hpc => exact h.goto _ nofun (by rw [hpc]; exact nofun) (by rw [hpc]; exact nofun) nofun
  | iputRef hpc hone =>
    exact h.goto _ (by rintro b ⟨⟩; exact hone) (by rw [hpc]; exact nofun) (by rw [hpc]; exact nofun)
      nofun
  | iputShared hpc => exact h.goto _ nofun (by rw [hpc]; exact nofun) (by rw [hpc]; exact nofun) nofun
  | iputFree hpc =>
    exact h.write hb _ (.clearing _) _ (hb.fits hpc).2.1 (.inr ⟨rfl, h.last _ _ hpc⟩) nofun
      (by rw [hpc]; exact fun _ => rfl) nofun
  | iputInvalid hpc =>
    refine h.move (.releasing _ true) rfl rfl nofun (fun _ hvalid => absurd hvalid nofun) ?_ ?_ nofun
    · rw [hpc]
      rintro b ⟨⟩
      rfl
    · rw [hpc]
      exact fun b hb => hb
  | @iputRelease i a freed hpc =>
    refine h.moveLock (.dropping a freed) a none nofun (by rw [hpc]; exact nofun) ?_ nofun
    rw [hpc]
    cases freed with
    | false => exact nofun
    | true => exact fun b hb => hb
  | iputDrop hpc => exact h.iputDrop hb hpc
  | ialloc hpc hnone => exact h.ialloc hpc hnone
  | iallocGet hpc hs => exact h.iallocGet hb hpc hs
  | @setNlink i a nlink hpc hholder hvalid =>
    have htype : (s.inode a).copy.type ≠ none := by
      obtain hcopy | ⟨j, hj⟩ := h.copy a (hb.ref_pos (hb.holder i a hholder)) hvalid
      · exact hcopy.2
      · obtain rfl := Option.some.inj ((hb.fits hj).2.symm.trans hholder)
        rw [hpc] at hj
        cases hj
    have hwritten := h.write hb (i := i) { (s.inode a).copy with nlink := nlink } .running
      s.dirent hholder (.inl htype) nofun (by rw [hpc]; exact fun _ => rfl) nofun
    rwa [goto_eq_self (by exact hpc)] at hwritten
  | setDirents => exact ⟨h.last, h.copy, h.gone, h.marked, h.recycled, h.allocates⟩

/-! ## The results -/

omit [Fintype ι] in
theorem step_key (hs : s.step act = .ok s') {a : Fin ninode} (hpos : 0 < (s.inode a).ref) :
    (s'.inode a).key = (s.inode a).key := by
  have higet : ∀ {r : Icache ι} {i key}, r.inode = s.inode → r.iget i key = .ok s' →
      (s'.inode a).key = (s.inode a).key := by
    intro r i key hr hs
    rw [← hr] at hpos ⊢
    obtain ⟨b, -, -, rfl⟩ | ⟨b, hzero, -, rfl⟩ := iget_cases hs
    · exact update_key (by rfl) a
    · have hab : a ≠ b := by
        rintro rfl
        omega
      exact congrArg CachedInode.key (update_of_ne hab ..)
  cases step_cases hs with
  | igetEntry hpc hnamed hs => exact higet rfl hs
  | igetHeld hpc hrefs hs => exact higet rfl hs
  | iallocGet hpc hs => exact higet (r := s.goto _ .running) rfl hs
  | @ilockAcquire i b hpc | @iputAcquire i b hpc =>
    unfold acquiresleep
    split
    · rfl
    · exact update_key (by rfl) a
  | idup | ilockRead | iunlock | iputFree | iputInvalid | iputRelease | iputDrop | setNlink =>
    exact update_key (by rfl) a
  | ilock | ilockValid | iput | iputTest | iputLinked | iputRef | iputShared | ialloc
  | setDirents => rfl

omit [Fintype ι] in
theorem step_frees (hs : s.step act = .ok s') (hused : (s.dinode key).type ≠ none)
    (hfree : (s'.dinode key).type = none) :
    (∃ i a, act = .iputFree i ∧ (s.proc i).pc = .freeing a ∧ (s.inode a).key = key) ∨
      ∃ i a nlink, act = .setNlink i a nlink ∧ (s.inode a).copy.type = none := by
  have higet : ∀ {r : Icache ι} {i k}, r.dinode = s.dinode → r.iget i k = .ok s' → False := by
    intro r i k hr hs
    rw [← hr] at hused
    obtain ⟨b, -, -, rfl⟩ | ⟨b, -, -, rfl⟩ := iget_cases hs <;> exact hused hfree
  cases step_cases hs with
  | igetEntry hpc hnamed hs => exact (higet rfl hs).elim
  | igetHeld hpc hrefs hs => exact (higet rfl hs).elim
  | iallocGet hpc hs => exact (higet (r := s.goto _ .running) rfl hs).elim
  | @ilockAcquire i b hpc | @iputAcquire i b hpc =>
    unfold acquiresleep at hfree
    split at hfree <;> exact absurd hfree hused
  | idup | ilockRead | iunlock | iputInvalid | iputRelease | iputDrop | ilock | ilockValid | iput
  | iputTest | iputLinked | iputRef | iputShared | setDirents => exact absurd hfree hused
  | @iputFree i a hpc =>
    refine .inl ⟨i, a, rfl, hpc, ?_⟩
    by_contra hne
    change (update s.dinode (s.inode a).key _ key).type = none at hfree
    rw [update_of_ne (Ne.symm hne)] at hfree
    exact hused hfree
  | @ialloc i k type hpc hnone =>
    change (update s.dinode k ⟨some type, 0⟩ key).type = none at hfree
    by_cases hk : key = k
    · subst hk
      exact absurd hnone hused
    · rw [update_of_ne hk] at hfree
      exact absurd hfree hused
  | @setNlink i a nlink hpc hholder hvalid =>
    refine .inr ⟨i, a, nlink, rfl, ?_⟩
    change (update s.dinode (s.inode a).key _ key).type = none at hfree
    by_cases hk : key = (s.inode a).key
    · rw [hk, update_self] at hfree
      exact hfree
    · rw [update_of_ne hk] at hfree
      exact absurd hfree hused

/-- **The inode cache is coherent** in every state of every run, over any disk and by any number of
processes: a slot in use is the only one with its inode, and whatever the next step is, it keeps
it. If no `iget` through a directory entry was for an inode without links, then besides a step
that sets the type of an inode on disk to zero is the one of `iput`, the inode has no links, and no
other process has a reference to the slot. -/
theorem inode_cache_coherent (dinode : Nat × Nat → LinkInfo) (dirent : Nat × Nat → List Nat)
    (as : List (IcacheAction ι)) (t : Icache ι) (hr : run step (iinit ι dinode dirent) as = .ok t) :
    (∀ a b, 0 < (t.inode a).ref → 0 < (t.inode b).ref → (t.inode a).key = (t.inode b).key →
        a = b) ∧
      (∀ act t', t.step act = .ok t' → ∀ a, 0 < (t.inode a).ref →
        (t'.inode a).key = (t.inode a).key) ∧
      (Guarded step Linked (iinit ι dinode dirent) as → ∀ act t', t.step act = .ok t' →
        ∀ key, (t.dinode key).type ≠ none → (t'.dinode key).type = none →
          ∃ i a, act = .iputFree i ∧ (t.inode a).key = key ∧ (t.inode a).copy.nlink = 0 ∧
            (t.dinode key).nlink = 0 ∧ ∀ j, j ≠ i → (t.proc j).refs a = 0) := by
  have hbase : t.Base :=
    run_invariant_of_step Base (fun _ _ _ h => h.step) (base_iinit dinode dirent) hr
  refine ⟨hbase.unique, fun act t' hs a hpos => step_key hs hpos, fun hg act t' hs key hused hfree =>
    ?_⟩
  have hsafe : t.Base ∧ t.Safe :=
    run_invariant (fun s => s.Base ∧ s.Safe) (fun _ _ _ h hok hs => ⟨h.1.step hs, h.2.step h.1 hok hs⟩)
      ⟨base_iinit dinode dirent, safe_iinit dinode dirent⟩ hg hr
  obtain ⟨i, a, rfl, hpc, rfl⟩ | ⟨i, a, nlink, rfl, hnone⟩ := step_frees hs hused hfree
  · obtain ⟨hnlink, hdisk, hothers⟩ := hsafe.2.freeing hbase hpc
    exact ⟨i, a, rfl, rfl, hnlink, hdisk, hothers⟩
  · -- the copy that `setNlink` writes back is that of an inode in use
    cases step_cases hs with
    | setNlink hpc hholder hvalid =>
      obtain ⟨-, htype⟩ | ⟨j, hj⟩ :=
        hsafe.2.copy a (hbase.ref_pos (hbase.holder i a hholder)) hvalid
      · exact absurd hnone htype
      · obtain rfl := Option.some.inj ((hbase.fits hj).2.symm.trans hholder)
        rw [hpc] at hj
        cases hj

/-- A disk with the directories `/` (inode 1), `/p` (inode 2) and `/p/d` (inode 3). -/
def nestedDirs : Nat × Nat → LinkInfo
  | (1, 1) => ⟨some .dir, 2⟩
  | (1, 2) => ⟨some .dir, 2⟩
  | (1, 3) => ⟨some .dir, 1⟩
  | _ => ⟨none, 0⟩

def nestedDirents : Nat × Nat → List Nat
  | (1, 1) => [1, 1, 2]
  | (1, 2) => [2, 1, 3]
  | (1, 3) => [3, 2]
  | _ => []

section Runs

variable (i : Fin 2) (a : Fin ninode)

/-- `ilock(ip)` without interruption. -/
def ilockSteps : List (IcacheAction (Fin 2)) := [.ilock i a, .acquiresleep i, .ilockRead i]

/-- `iput(ip)` of an inode with links, without interruption. -/
def iputSteps : List (IcacheAction (Fin 2)) :=
  [.iput i a, .acquiresleep i, .iputTest i, .iputRelease i, .iputDrop i]

end Runs

/-- `chdir("/p/d")` by process 0: it keeps the reference to `d` in slot 0. -/
def chdirSteps : List (IcacheAction (Fin 2)) :=
  [[.igetEntry 0 1 1 1], ilockSteps 0 0, [.igetEntry 0 1 1 2, .iunlock 0 0], iputSteps 0 0,
    ilockSteps 0 1, [.igetEntry 0 1 2 3, .iunlock 0 1], iputSteps 0 1,
    ilockSteps 0 0, [.iunlock 0 0]].flatten

/-- `unlink("/p/d")` by process 1. The directory stays, as process 0 has a reference. -/
def unlinkChildSteps : List (IcacheAction (Fin 2)) :=
  [[.igetEntry 1 1 1 1], ilockSteps 1 1, [.igetEntry 1 1 1 2, .iunlock 1 1], iputSteps 1 1,
    ilockSteps 1 2, [.iunlock 1 2],
    ilockSteps 1 2, [.igetEntry 1 1 2 3], ilockSteps 1 0,
    [.setDirents 1 2 [2, 1], .setNlink 1 2 1, .iunlock 1 2], iputSteps 1 2,
    [.setNlink 1 0 0, .iunlock 1 0, .iput 1 0, .acquiresleep 1, .iputTest 1, .iputRef 1,
      .iputRelease 1, .iputDrop 1]].flatten

/-- `unlink("/p")` by process 1, up to where `iput` has found that it has the last reference. -/
def unlinkParentSteps : List (IcacheAction (Fin 2)) :=
  [[.igetEntry 1 1 1 1], ilockSteps 1 1, [.iunlock 1 1],
    ilockSteps 1 1, [.igetEntry 1 1 1 2], ilockSteps 1 2,
    [.setDirents 1 1 [1, 1], .setNlink 1 1 1, .iunlock 1 1], iputSteps 1 1,
    [.setNlink 1 2 0, .iunlock 1 2, .iput 1 2, .acquiresleep 1, .iputTest 1, .iputRef 1]].flatten

/-- `open("..")` by process 0, up to the `iget` of the parent. -/
def openDotdotSteps : List (IcacheAction (Fin 2)) :=
  [[.idup 0 0 0], ilockSteps 0 0, [.igetEntry 0 1 3 2]].flatten

/-- The first removal is of the child, which is still referenced and stays; the second frees the
parent, of which process 1 has the only reference. -/
theorem inode_cache_coherent_removed_parent :
    let as := chdirSteps ++ unlinkChildSteps ++ unlinkParentSteps
    ∃ t t', run step (iinit (Fin 2) nestedDirs nestedDirents) as = .ok t ∧
      t.step (.iputFree 1) = .ok t' ∧ (t'.dinode (1, 2)).type = none ∧
      (t'.dinode (1, 3)).type = some .dir ∧
      ∃ a, (t.inode a).key = (1, 2) ∧ (t.dinode (1, 2)).nlink = 0 ∧ (t.proc 0).refs a = 0 := by
  intro as
  obtain ⟨t, t', ht, hs, hq⟩ := run_step_of_eval step (iinit (Fin 2) nestedDirs nestedDirents) as
    (.iputFree 1) (fun t t' => decide ((t.dinode (1, 2)).type ≠ none ∧
      (t'.dinode (1, 2)).type = none ∧ (t'.dinode (1, 3)).type = some .dir)) (by decide +kernel)
  have hg : Guarded step Linked (iinit (Fin 2) nestedDirs nestedDirents) as := by decide +kernel
  obtain ⟨hused, hnone, hdir⟩ := of_decide_eq_true hq
  obtain ⟨i, a, hi, hkey, -, hdisk, hothers⟩ := (inode_cache_coherent nestedDirs nestedDirents as t
    ht).2.2 hg (.iputFree 1) t' hs (1, 2) hused hnone
  obtain rfl : 1 = i := IcacheAction.iputFree.inj hi
  exact ⟨t, t', ht, hs, hnone, hdir, a, hkey, hdisk, hothers 0 (by decide)⟩

/-- Process 0, whose working directory has been removed, asks for `..` between the moment process
1 reads `ref` of the parent and the moment it frees it: when the type on disk becomes zero, process
0 has a reference to the slot. -/
theorem dead_parent_freed_while_referenced :
    let as := chdirSteps ++ unlinkChildSteps ++ unlinkParentSteps ++ openDotdotSteps
    ∃ t t', run step (iinit (Fin 2) nestedDirs nestedDirents) as = .ok t ∧
      t.step (.iputFree 1) = .ok t' ∧ (t.proc 1).pc = .freeing 2 ∧ (t.inode 2).key = (1, 2) ∧
      (t.dinode (1, 2)).type = some .dir ∧ (t'.dinode (1, 2)).type = none ∧
      0 < (t.proc 0).refs 2 := by
  intro as
  obtain ⟨t, t', ht, hs, hq⟩ := run_step_of_eval step (iinit (Fin 2) nestedDirs nestedDirents) as
    (.iputFree 1) (fun t t' => decide ((t.proc 1).pc = .freeing 2 ∧ (t.inode 2).key = (1, 2) ∧
      (t.dinode (1, 2)).type = some .dir ∧ (t'.dinode (1, 2)).type = none ∧
      0 < (t.proc 0).refs 2)) (by decide +kernel)
  exact ⟨t, t', ht, hs, of_decide_eq_true hq⟩

end Icache

end Xv6Mmap
