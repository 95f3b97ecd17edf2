import Xv6Mmap.FsDir

/-!
# Looking leaves the disk alone (`fs.c:240-365`, `fs.c:524-548`)

What the functions do that only look: between two operations, on a well-formed disk, `ilock`,
`iunlock`, `iget`, `dirlookup` and an `iput` that frees nothing change the inode cache and nothing
else. Here also their errors are said exactly, so that they can be shown to return.

* `Rest G L s`: the reference counts are `G`, exactly the inodes of `L` are locked, and the disk is
  well formed.
* `Quiet F s s'`: only the inode cache changed, and slots with a reference in `F` kept their inode.
* `iput` frees an inode only if it is the last reference to a node without links. Where every node
  without links that can be found is referred to by somebody else (`NoOrphan`), looking never does
  that.
-/

namespace Xv6Mmap.Fs

open Lib

/-- The reference counts are `G`, the inodes of `L` are locked and no others, and the disk is well
formed. -/
structure Rest (G : Fin ninode → Int) (L : List (Fin ninode)) (s : State) : Prop where
  held : Held G L s
  disk : Disk s
  unlocked : ∀ b, b ∉ L → (s.inode b).locked = false

/-- Only the inode cache changes, and slots with a reference keep their inode. -/
structure Quiet (F : Fin ninode → Int) (s s' : State) : Prop extends Keeps F Eq s s' where
  vol : s'.vol = s.vol
  dinode : s'.dinode = s.dinode

/-- Inode `i` can be found: it is the root, or a directory has an entry for it. -/
def State.Exposed (s : State) (i : Nat) : Prop :=
  i = rootino ∨ ∃ j m k, s.nodes j = some m ∧ m.type = .dir ∧ k < entries m.bytes ∧
    i ≠ 0 ∧ deInum (entry m.bytes k) = i

/-- If node `i` has no links, it is the inode of a slot that has a reference in `F`. -/
def State.Spared (s : State) (F : Fin ninode → Int) (i : Nat) : Prop :=
  ∀ n, s.nodes i = some n → n.nlink = 0 → i ∈ s.named F

/-- Every node without links that can be found is the inode of a slot that has a reference in
`F`. -/
def State.NoOrphan (s : State) (F : Fin ninode → Int) : Prop := ∀ i, s.Exposed i → s.Spared F i

/-- There is a slot of the cache for inode `inum`. -/
def State.Cacheable (s : State) (inum : Nat) : Prop :=
  (∃ b, 0 < (s.inode b).ref ∧ (s.inode b).inum = inum) ∨ ∃ b, (s.inode b).ref = 0

section Quiet

variable {F G : Fin ninode → Int} {L : List (Fin ninode)} {s s₁ s₂ : State} {a : Fin ninode}

theorem Quiet.refl (F : Fin ninode → Int) (s : State) : Quiet F s s := ⟨.refl F s, rfl, rfl⟩

theorem Quiet.trans (h : Quiet F s s₁) (h' : Quiet F s₁ s₂) : Quiet F s s₂ :=
  ⟨h.toKeeps.eq_comp h'.toKeeps, h'.vol.trans h.vol, h'.dinode.trans h.dinode⟩

theorem Quiet.mono (h : Quiet G s s₁) (hF : ∀ b, 0 < F b → 0 < G b) : Quiet F s s₁ :=
  ⟨h.toKeeps.mono hF, h.vol, h.dinode⟩

/-- Where all slots keep their inode, those with a reference do. -/
theorem Quiet.all (h : Quiet 1 s s₁) : Quiet F s s₁ := h.mono fun _ _ => Int.one_pos

theorem Quiet.nodes (h : Quiet F s s₁) : s₁.nodes = s.nodes := by
  unfold State.nodes
  rw [h.vol, h.dinode]

theorem State.Spared.mono {i : Nat} (h : s.Spared F i) (hF : ∀ b, 0 < F b → 0 < G b) :
    s.Spared G i :=
  fun n hn h0 => by
    obtain ⟨b, hb, hi⟩ := h n hn h0
    exact ⟨b, hF b hb, hi⟩

theorem State.Spared.keeps {i : Nat} {P : Nodes → Nodes → Prop} (h : s.Spared F i)
    (hk : Keeps F P s s₁) (hN : s₁.nodes i = s.nodes i) : s₁.Spared F i :=
  fun n hn h0 => by
    rw [hk.named]
    rw [hN] at hn
    exact h n hn h0

theorem State.Spared.quiet {i : Nat} (h : s.Spared F i) (hq : Quiet F s s₁) : s₁.Spared F i :=
  h.keeps hq.toKeeps (by rw [hq.nodes])

theorem State.Spared.slot (h : s.Spared F (s.inode a).inum) (hq : Quiet G s s₁)
    (hF : ∀ b, 0 < F b → 0 < G b) (ha : 0 < G a) : s₁.Spared F (s₁.inode a).inum := by
  rw [hq.inum a ha]
  exact h.quiet (hq.mono hF)

theorem State.Exposed.of_nodes {i : Nat} (h : s₁.Exposed i) (hN : s₁.nodes = s.nodes) :
    s.Exposed i := by
  unfold State.Exposed at *
  rwa [hN] at h

theorem State.NoOrphan.quiet (h : s.NoOrphan F) (hq : Quiet F s s₁) : s₁.NoOrphan F :=
  fun i hi => (h i (hi.of_nodes hq.nodes)).quiet hq

/-- The inode of a slot with a reference is referred to. -/
theorem State.Spared.of_pos (hpos : 0 < F a) : s.Spared F (s.inode a).inum :=
  fun _ _ _ => ⟨a, hpos, rfl⟩

/-- A slot with another reference than the caller's, or whose node has links, is not freed. -/
theorem Rest.other (h : Rest G L s) (hpos : 0 < G a) (ho : s.Spared (G - one a) (s.inode a).inum)
    (hv : (s.inode a).valid = true) (h0 : (s.inode a).copy.nlink = 0) : 0 < (G - one a) a := by
  have href : 0 < (s.inode a).ref := by rwa [h.held.ref a]
  obtain ⟨hcopy, hused⟩ := h.disk.cached a href hv
  obtain ⟨type, ht⟩ := Option.ne_none_iff_exists'.mp hused
  obtain ⟨b, hb, hi⟩ := ho _ (nodes_eq_some ht) (by rw [← hcopy]; exact h0)
  have hbr : 0 < (s.inode b).ref := by
    rw [h.held.ref b]
    exact pos_of_sub hb
  rwa [h.disk.unique b a hbr href hi] at hb

end Quiet

/-! ## References and locks -/

section Specs

variable {G : Fin ninode → Int} {L : List (Fin ninode)} {s : State} {a : Fin ninode}

/-- `iget(dev, inum)`. A slot that was free before is not valid. -/
theorem iget_rest (h : Rest G L s) (inum : Nat) :
    Wp (iget inum) s
      (fun b s' => Rest (G + one b) L s' ∧ Quiet G s s' ∧ (s'.inode b).inum = inum ∧
        ((s'.inode b).valid = true → 0 < G b))
      fun _ => ¬ s.Cacheable inum := by
  have hexact : Wp (iget inum) s (fun b s' => ∃ x, s' = s.slot b x ∧
      x.locked = (s.inode b).locked ∧ (x.valid = true → 0 < (s.inode b).ref))
      fun _ => ¬ s.Cacheable inum := by
    unfold iget
    rw [wp_bind, wp_get]
    cases hf : (List.finRange ninode).find? fun ip =>
        decide (0 < (s.inode ip).ref ∧ (s.inode ip).inum = inum) with
    | some a =>
      have ha : 0 < (s.inode a).ref ∧ (s.inode a).inum = inum := by simpa using List.find?_some hf
      exact ⟨_, rfl, rfl, fun _ => ha.1⟩
    | none =>
      cases hz : (List.finRange ninode).find? fun ip => decide ((s.inode ip).ref = 0) with
      | some a => exact ⟨_, rfl, rfl, nofun⟩
      | none =>
        rintro (⟨b, hb⟩ | ⟨b, hb⟩)
        · exact absurd (decide_eq_true hb) (List.find?_eq_none.mp hf b (List.mem_finRange b))
        · exact absurd (decide_eq_true hb) (List.find?_eq_none.mp hz b (List.mem_finRange b))
  refine (hexact.and (iget_spec h.held inum)).mono ?_ fun _ he => he.1
  rintro b _ ⟨⟨x, rfl, hlock, hvalid⟩, h', hk, hinum⟩
  refine ⟨⟨h', (hk.disk h.disk).1, fun c hc => ?_⟩, ⟨hk, rfl, rfl⟩, hinum, fun hv => ?_⟩
  · by_cases hcb : c = b
    · subst hcb
      rw [slot_self, hlock]
      exact h.unlocked c hc
    · rw [slot_of_ne s x hcb]
      exact h.unlocked c hc
  · rw [slot_self] at hv
    rw [← h.held.ref b]
    exact hvalid hv

theorem idup_rest (h : Rest G L s) (hpos : 0 < G a) :
    Wp (idup a) s
      (fun b s' => b = a ∧ Rest (G + one a) L s' ∧ Quiet G s s') fun _ => False := by
  have hrun : idup a s = .ok (a, s.slot a { s.inode a with ref := (s.inode a).ref + 1 }) := rfl
  obtain ⟨-, h', hk⟩ := (idup_spec h.held hpos).ok hrun
  refine wp_of_run hrun ⟨rfl, ⟨h', (hk.disk h.disk).1, fun c hc => ?_⟩, ⟨hk, rfl, rfl⟩⟩
  by_cases hca : c = a
  · subst hca
    rw [slot_self]
    exact h.unlocked c hc
  · rw [slot_of_ne s _ hca]
    exact h.unlocked c hc

/-- `ilock(ip)` of an inode that the caller has not locked fails only if it is free. -/
theorem ilock_rest (h : Rest G L s) (ha : a ∉ L) (hpos : 0 < G a) :
    Wp (ilock a) s (fun _ s' => Rest G (a :: L) s' ∧ Quiet 1 s s')
      fun _ => s.nodes (s.inode a).inum = none := by
  refine (ilock_spec.and (ilock_held h.held 1)).mono ?_ ?_
  · rintro - _ ⟨⟨-, -, -, rfl⟩, -, h', hk⟩
    refine ⟨⟨h', (hk.disk h.disk).1, fun b hb => ?_⟩, ⟨hk, rfl, rfl⟩⟩
    rw [List.mem_cons, not_or] at hb
    rw [slot_of_ne s _ hb.1]
    exact h.unlocked b hb.2
  · rintro - ⟨href | hlock | ⟨-, hnone⟩, -⟩
    · rw [h.held.ref a] at href
      omega
    · rw [h.unlocked a ha] at hlock
      cases hlock
    · simp [State.nodes, nodeOf, hnone]

theorem iunlock_rest (h : Rest G (a :: L) s) (ha : a ∉ L) :
    Wp (iunlock a) s (fun _ s' => Rest G L s' ∧ Quiet 1 s s') fun _ => False := by
  obtain ⟨hlock, -, hpos⟩ := h.held.lock a List.mem_cons_self
  refine (iunlock_spec.and
    (iunlock_held h.held 1 L (fun b hb => List.mem_cons_of_mem a hb) ha)).mono ?_ ?_
  · rintro - _ ⟨rfl, h', hk⟩
    refine ⟨⟨h', (hk.disk h.disk).1, fun b hb => ?_⟩, ⟨hk, rfl, rfl⟩⟩
    by_cases hba : b = a
    · subst hba
      rw [slot_self]
    · rw [slot_of_ne s _ hba]
      exact h.unlocked b fun hmem => (List.mem_cons.mp hmem).elim hba hb
  · rintro - ⟨hfree | href, -⟩
    · rw [hlock] at hfree
      cases hfree
    · rw [h.held.ref a] at href
      omega

/-- `iput(ip)` of an inode that is not locked, where this is not the last reference to a node
without links. -/
theorem iput_rest (h : Rest G L s) (ha : a ∉ L) (hpos : 0 < G a)
    (hother : (s.inode a).valid = true → (s.inode a).copy.nlink = 0 → 0 < (G - one a) a) :
    Wp (iput a) s (fun _ s' => Rest (G - one a) L s' ∧ Quiet 1 s s') fun _ => False := by
  have href : 0 < (s.inode a).ref := by rwa [h.held.ref a]
  have hlock := h.unlocked a ha
  have hkept : ¬ ((s.inode a).valid = true ∧ (s.inode a).copy.nlink = 0 ∧ (s.inode a).ref = 1) := by
    rintro ⟨hv, h0, h1⟩
    have := hother hv h0
    rw [sub_one_self, ← h.held.ref a, h1] at this
    omega
  have hk := Keeps.sub_one 1 href
  have hrest : Rest (G - one a) L (s.slot a { s.inode a with ref := (s.inode a).ref - 1 }) := by
    refine ⟨h.held.sub_one hpos ha, (hk.disk h.disk).1, fun b hb => ?_⟩
    by_cases hba : b = a
    · subst hba
      rw [slot_self]
      exact hlock
    · rw [slot_of_ne s _ hba]
      exact h.unlocked b hb
  unfold iput acquiresleep
  simp only [wp_bind, wp_getInode, hlock, Bool.false_eq_true, if_false, wp_setInode, wp_when,
    slot_self, slot_slot]
  rw [if_neg hkept, ← hlock]
  exact ⟨hrest, hk, rfl, rfl⟩

/-- `iunlockput(ip)` where no node without links is left to the caller alone. -/
theorem iunlockput_rest (h : Rest G (a :: L) s) (ha : a ∉ L)
    (ho : s.Spared (G - one a) (s.inode a).inum) :
    Wp (iunlockput a) s (fun _ s' => Rest (G - one a) L s' ∧ Quiet 1 s s') fun _ => False := by
  have hpos := (h.held.lock a List.mem_cons_self).2.2
  unfold iunlockput
  refine (iunlock_rest h ha).next ?_
  rintro - s₁ ⟨h1, hq1⟩
  have ho1 := ho.slot hq1 (fun _ _ => Int.one_pos) Int.one_pos
  refine (iput_rest h1 ha hpos (h1.other hpos ho1)).imp ?_
  rintro - s₂ ⟨h2, hq2⟩
  exact ⟨h2, hq1.trans hq2⟩

/-! ## Reading directories -/

theorem Disk.length_le (hd : Disk s) {i : Nat} {m : Node} (hm : s.nodes i = some m) :
    m.bytes.length ≤ maxfile * bsize := by
  cases ht : (s.dinode i).type with
  | none => simp [State.nodes, nodeOf, ht] at hm
  | some type =>
    rw [nodes_eq_some ht] at hm
    cases hm
    rw [length_bytes]
    have hcov := hd.covers i (by simp [ht]) maxfile
    rw [ptrs_of_le (Nat.le_refl maxfile)] at hcov
    have : ¬ maxfile * bsize < (s.dinode i).size := fun h => hcov.mpr h rfl
    omega

variable {m : Node}

theorem readi_run (h : Rest G L s) (ha : a ∈ L) (hm : s.nodes (s.inode a).inum = some m)
    (ht : m.type ≠ .dev) (off n : Nat) (io : DevIo) :
    readi a off n io s = .ok (m.read off n, s) := by
  have hread := (readi_held h.held ha G off n io).mono (fun _ _ hr => hr.2.2 h.disk)
    fun _ he => he h.disk
  obtain ⟨r, s', hrun, rfl, hr⟩ := hread.returns
  rw [hrun, hr m hm ht]

theorem readDirent_run (h : Rest G L s) (ha : a ∈ L) (hm : s.nodes (s.inode a).inum = some m)
    (ht : m.type = .dir) {k : Nat} (hk : k < entries m.bytes) (msg : String) :
    readDirent a (deSize * k) msg s = .ok (entry m.bytes k, s) := by
  have hmax := h.disk.length_le hm
  have hbig : maxfile * bsize < 2 ^ 31 := by decide
  have hend : deSize * k + deSize ≤ m.bytes.length := by
    unfold entries deSize at *
    omega
  have hread : m.read (deSize * k) deSize = (((deSize : Nat) : Int), entry m.bytes k) := by
    unfold Node.read
    rw [if_neg (by omega), Nat.min_eq_left (by omega)]
    rfl
  unfold readDirent
  rw [stateT_bind, readi_run h ha hm (by rw [ht]; nofun), hread]
  rfl

/-- What `dirlookup` from entry `k` on does. -/
def Looks (G : Fin ninode → Int) (L : List (Fin ninode)) (s : State) (bs : List Byte)
    (found : Option Nat) (r : Option (Fin ninode × Nat)) (s' : State) : Prop :=
  Quiet G s s' ∧
    match r with
    | none => found = none ∧ bs.length = deSize * entries bs ∧ s' = s
    | some (b, off) => Rest (G + one b) L s' ∧ ((s'.inode b).valid = true → 0 < G b) ∧
      ∃ k, found = some k ∧ off = deSize * k ∧ (s'.inode b).inum = deInum (entry bs k)

/-- The errors of `dirlookup`: an entry that is cut off, or no slot for the inode found. -/
def LooksNot (s : State) (bs : List Byte) (found : Option Nat) : Prop :=
  bs.length ≠ deSize * entries bs ∨ ∃ k, found = some k ∧ ¬ s.Cacheable (deInum (entry bs k))

theorem lookup_ne_zero {bs name : List Byte} {k : Nat} (h : lookup bs name = some k) :
    k < entries bs ∧ deInum (entry bs k) ≠ 0 := by
  have hhit := List.find?_some h
  unfold hit at hhit
  rw [Bool.and_eq_true, decide_eq_true_eq] at hhit
  exact ⟨List.mem_range.mp (List.mem_of_find?_eq_some h), hhit.1⟩

theorem exposed_of_lookup {i k : Nat} {name : List Byte} (hm : s.nodes i = some m)
    (ht : m.type = .dir) (hk : lookup m.bytes name = some k) :
    s.Exposed (deInum (entry m.bytes k)) := by
  obtain ⟨hlt, hused⟩ := lookup_ne_zero hk
  exact .inr ⟨i, m, k, hm, ht, hlt, hused, rfl⟩

theorem dirlookupLoop_rest (h : Rest G L s) (ha : a ∈ L) (hm : s.nodes (s.inode a).inum = some m)
    (ht : m.type = .dir) (name : List Byte) {fuel k : Nat} (hk : k ≤ entries m.bytes)
    (hfuel : m.bytes.length < k + fuel) :
    Wp (dirlookupLoop a name fuel (deSize * k)) s
      (Looks G L s m.bytes
        ((List.range' k (entries m.bytes - k)).find? (hit m.bytes name)))
      fun _ => LooksNot s m.bytes
        ((List.range' k (entries m.bytes - k)).find? (hit m.bytes name)) := by
  have hle : entries m.bytes ≤ m.bytes.length := Nat.div_le_self ..
  obtain ⟨m', hm', -, hsize, -⟩ := h.held.node ha h.disk
  rw [hm] at hm'
  cases hm'
  induction fuel generalizing k with
  | zero => omega
  | succ fuel ih =>
    rw [dirlookupLoop]
    simp only [wp_bind, wp_getInode, hsize]
    by_cases hlt : k < entries m.bytes
    · have hin : deSize * k < m.bytes.length := by
        unfold entries deSize at *
        omega
      obtain ⟨n, hn⟩ : ∃ n, entries m.bytes - k = n + 1 := ⟨entries m.bytes - k - 1, by omega⟩
      rw [if_pos hin, wp_bind, hn, List.range'_succ]
      refine wp_of_run (readDirent_run h ha hm ht hlt _) ?_
      by_cases hhit : hit m.bytes name k = true
      · rw [List.find?_cons_of_pos hhit]
        unfold hit at hhit
        rw [Bool.and_eq_true, decide_eq_true_eq] at hhit
        rw [if_pos hhit, wp_bind]
        refine (iget_rest h _).mono ?_ fun _ he => .inr ⟨k, rfl, he⟩
        rintro b s' ⟨h', hq, hinum, hvalid⟩
        exact ⟨hq, h', hvalid, k, rfl, rfl, hinum⟩
      · rw [List.find?_cons_of_neg hhit]
        unfold hit at hhit
        rw [Bool.and_eq_true, decide_eq_true_eq] at hhit
        have hn' : n = entries m.bytes - (k + 1) := by omega
        rw [if_neg hhit, hn', ← Nat.mul_succ]
        exact ih hlt (by omega)
    · have hend : k = entries m.bytes := by omega
      have hnone : (List.range' k (entries m.bytes - k)).find? (hit m.bytes name) = none := by
        rw [hend, Nat.sub_self]
        rfl
      rw [hnone]
      split
      case isTrue hin =>
        -- the size is no multiple of the size of an entry
        refine (readDirent_held h.held ha G k _).bind ?_ fun _ _ => .inl (by rw [← hend]; omega)
        rintro de s₁ ⟨-, -, hde⟩
        exact absurd ((hde h.disk).2 m hm (by simp [ht])).1 hlt
      case isFalse hge =>
        have := mul_le_length (Nat.le_of_eq hend)
        exact ⟨.refl G s, rfl, by rw [← hend]; omega, rfl⟩

theorem dirlookup_rest (h : Rest G L s) (ha : a ∈ L) (hm : s.nodes (s.inode a).inum = some m)
    (ht : m.type = .dir) (name : List Byte) :
    Wp (dirlookup a name) s (Looks G L s m.bytes (lookup m.bytes name))
      fun _ => LooksNot s m.bytes (lookup m.bytes name) := by
  obtain ⟨m', hm', hmt, hsize, -⟩ := h.held.node ha h.disk
  rw [hm] at hm'
  cases hm'
  unfold dirlookup
  simp only [wp_bind, wp_getInode, hmt, ht, ne_eq, not_true_eq_false, if_false, hsize]
  have hloop := dirlookupLoop_rest h ha hm ht name (Nat.zero_le _)
    (show m.bytes.length < 0 + (m.bytes.length + 1) by omega)
  rwa [Nat.sub_zero, ← List.range_eq_range'] at hloop

end Specs

end Xv6Mmap.Fs
