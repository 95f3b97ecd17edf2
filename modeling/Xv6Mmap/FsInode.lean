import Mathlib.Logic.Relation
import Xv6Mmap.FsDisk

/-!
# What the functions on inodes do (`fs.c:220-365`)

Two statements about every function of the inode layer, put together in one postcondition:

* `Held G L`: the reference counts are `G`, and the caller has the inodes of `L` locked. This part
  does not depend on what is on the disk.
* `Keeps F P`: files and processes are left alone; a slot of the cache that keeps a reference
  throughout (`0 < F`) stays the slot of its inode; and if the disk is well formed it stays so, and
  its nodes are related by `P`.

The inodes that `iput` may free on the way are those without links that nobody refers to (`Reaps`).
-/

namespace Xv6Mmap.Fs

open Lib
open Function (update update_self update_of_ne update_eq_self update_idem)

/-! ## Rules for the primitives -/

section Rules

variable {s : State} {a : Fin ninode} {E : Halt → Prop}

@[simp] theorem wp_getInode {Q : Inode → State → Prop} :
    Wp (getInode a) s Q E ↔ Q (s.inode a) s :=
  Iff.rfl

@[simp] theorem wp_setInode {x : Inode} {Q : Unit → State → Prop} :
    Wp (setInode a x) s Q E ↔ Q ⟨⟩ (s.slot a x) :=
  Iff.rfl

@[simp] theorem wp_setCopy {d : Dinode} {Q : Unit → State → Prop} :
    Wp (setCopy a d) s Q E ↔ Q ⟨⟩ (s.slot a { s.inode a with copy := d }) :=
  Iff.rfl

@[simp] theorem wp_iupdate {Q : Unit → State → Prop} :
    Wp (iupdate a) s Q E ↔
      Q ⟨⟩ { s with dinode := update s.dinode (s.inode a).inum (s.inode a).copy } :=
  Iff.rfl

@[simp] theorem wp_when {c : Prop} [Decidable c] {m : FsM Unit} {Q : Unit → State → Prop} :
    Wp (when c m) s Q E ↔ if c then Wp m s Q E else Q ⟨⟩ s := by
  unfold when
  split <;> rfl

@[simp] theorem slot_slot (s : State) (a : Fin ninode) (x y : Inode) :
    (s.slot a x).slot a y = s.slot a y := by
  simp only [State.slot, update_idem]

end Rules

/-! ## What is held and what is kept -/

/-- One reference to `a`. -/
def one {n : Nat} (a : Fin n) : Fin n → Int := fun b => if b = a then 1 else 0

section One

variable {n : Nat} {G : Fin n → Int} {a b : Fin n}

@[simp] theorem one_self (a : Fin n) : one a a = 1 := if_pos rfl

theorem one_of_ne (h : b ≠ a) : one a b = 0 := if_neg h

theorem one_nonneg (a b : Fin n) : 0 ≤ one a b := by
  unfold one
  split <;> decide

theorem pos_of_sub (h : 0 < (G - one a) b) : 0 < G b := by
  have hone := one_nonneg a b
  rw [Pi.sub_apply] at h
  omega

theorem pos_add (a b : Fin n) (h : 0 < G b) : 0 < (G + one a) b := by
  have hone := one_nonneg a b
  rw [Pi.add_apply]
  omega

theorem pos_add_one (hnn : ∀ b, 0 ≤ G b) (a : Fin n) : 0 < (G + one a) a := by
  have := hnn a
  rw [Pi.add_apply, one_self]
  omega

end One

/-- The reference counts are `G`, and the slots of `L` are locked by the caller. -/
structure Held (G : Fin ninode → Int) (L : List (Fin ninode)) (s : State) : Prop where
  ref : ∀ b, (s.inode b).ref = G b
  nonneg : ∀ b, 0 ≤ G b
  lock : ∀ b ∈ L, (s.inode b).locked = true ∧ (s.inode b).valid = true ∧ 0 < G b

/-- The inodes of the slots that have a reference according to `F`. -/
def State.named (s : State) (F : Fin ninode → Int) : Set Nat :=
  {i | ∃ b, 0 < F b ∧ (s.inode b).inum = i}

/-- From `N` to `N'` some nodes without links were freed, but none of `K`. -/
def Reaps (K : Set Nat) (N N' : Nodes) : Prop :=
  ∀ i, N' i = N i ∨ N' i = none ∧ i ∉ K ∧ ∃ n, N i = some n ∧ n.nlink = 0

/-- What is left alone, and what becomes of the disk. -/
structure Keeps (F : Fin ninode → Int) (P : Nodes → Nodes → Prop) (s s' : State) : Prop where
  sb : s'.sb = s.sb
  file : s'.file = s.file
  proc : s'.proc = s.proc
  inum : ∀ b, 0 < F b → (s'.inode b).inum = (s.inode b).inum
  disk : Disk s → Disk s' ∧ P s.nodes s'.nodes

section Keeps

variable {F G G' : Fin ninode → Int} {L L' : List (Fin ninode)} {P Q : Nodes → Nodes → Prop}
  {s s₁ s₂ : State} {a : Fin ninode}

variable {K : Set Nat} {N N' : Nodes}

theorem Reaps.of_eq (h : N = N') : Reaps K N N' :=
  fun _ => .inl (h ▸ rfl)

theorem Reaps.trans {N1 N2 : Nodes} (h : Reaps K N N1) (h' : Reaps K N1 N2) :
    Reaps K N N2 := by
  intro i
  rcases h' i with he | ⟨hn, hK, n, hs, h0⟩
  · rw [he]
    exact h i
  · rcases h i with he | ⟨hn', -, -⟩
    · exact .inr ⟨hn, hK, n, he ▸ hs, h0⟩
    · rw [hn'] at hs
      cases hs

theorem Reaps.mono {K' : Set Nat} (h : Reaps K N N') (hK : K' ⊆ K) :
    Reaps K' N N' :=
  fun i => (h i).imp id fun hr => ⟨hr.1, fun hi => hr.2.1 (hK hi), hr.2.2⟩

/-- A node that is kept may be changed before or after. -/
theorem Reaps.update (h : Reaps K N N') (i : Nat) (x : Option Node) :
    Reaps K (update N i x) (update N' i x) := by
  intro j
  by_cases hj : j = i
  · subst hj
    rw [update_self, update_self]
    exact .inl rfl
  · rw [update_of_ne hj, update_of_ne hj]
    exact h j

theorem Reaps.kept (h : Reaps K N N') {i : Nat} (hi : i ∈ K) :
    N' i = N i :=
  (h i).elim id fun hr => absurd hi hr.2.1

theorem Keeps.refl (F : Fin ninode → Int) (s : State) : Keeps F Eq s s :=
  ⟨rfl, rfl, rfl, fun _ _ => rfl, fun h => ⟨h, rfl⟩⟩

theorem Keeps.imp (h : Keeps F P s s₁) (hP : P s.nodes s₁.nodes → Q s.nodes s₁.nodes) :
    Keeps F Q s s₁ :=
  ⟨h.sb, h.file, h.proc, h.inum, fun hd => (h.disk hd).imp_right hP⟩

theorem Keeps.mono (h : Keeps G P s s₁) (hF : ∀ b, 0 < F b → 0 < G b) : Keeps F P s s₁ :=
  ⟨h.sb, h.file, h.proc, fun b hb => h.inum b (hF b hb), h.disk⟩

theorem Keeps.trans {R : Nodes → Nodes → Prop} (h : Keeps F P s s₁) (h' : Keeps F Q s₁ s₂)
    (hR : P s.nodes s₁.nodes → Q s₁.nodes s₂.nodes → R s.nodes s₂.nodes) : Keeps F R s s₂ where
  sb := h'.sb.trans h.sb
  file := h'.file.trans h.file
  proc := h'.proc.trans h.proc
  inum b hb := (h'.inum b hb).trans (h.inum b hb)
  disk hd := by
    obtain ⟨hd1, hp⟩ := h.disk hd
    obtain ⟨hd2, hq⟩ := h'.disk hd1
    exact ⟨hd2, hR hp hq⟩

theorem Keeps.comp (h : Keeps F P s s₁) (h' : Keeps F Q s₁ s₂) :
    Keeps F (Relation.Comp P Q) s s₂ :=
  h.trans h' fun hp hq => ⟨_, hp, hq⟩

theorem Keeps.eq_comp (h : Keeps F Eq s s₁) (h' : Keeps F P s₁ s₂) : Keeps F P s s₂ :=
  h.trans h' fun he hp => he ▸ hp

theorem Keeps.named (h : Keeps F P s s₁) : s₁.named F = s.named F := by
  ext i
  constructor
  · rintro ⟨b, hb, rfl⟩
    exact ⟨b, hb, (h.inum b hb).symm⟩
  · rintro ⟨b, hb, rfl⟩
    exact ⟨b, hb, h.inum b hb⟩

/-- Nodes without links may be freed, except those that keep a reference. -/
abbrev Frees (F : Fin ninode → Int) (s s' : State) : Prop := Keeps F (Reaps (s.named F)) s s'

theorem Keeps.frees (h : Keeps F Eq s s₁) : Frees F s s₁ := h.imp .of_eq

theorem Frees.mono (h : Frees G s s₁) (hF : ∀ b, 0 < F b → 0 < G b) : Frees F s s₁ :=
  (Keeps.mono h hF).imp fun hr => hr.mono fun _ ⟨b, hb, hi⟩ => ⟨b, hF b hb, hi⟩

theorem Frees.trans (h : Frees F s s₁) (h' : Frees F s₁ s₂) : Frees F s s₂ :=
  Keeps.trans h h' fun hr hr' => hr.trans (by rwa [h.named] at hr')

theorem Keeps.comp_frees (h : Keeps F P s s₁) (h' : Frees F s₁ s₂) :
    Keeps F (Relation.Comp P (Reaps (s.named F))) s s₂ := by
  refine h.trans h' fun hp hr => ⟨_, hp, ?_⟩
  rwa [h.named] at hr

variable {x : Inode}

/-- Only slot `a` of the cache changes, and stays the slot of its inode. -/
theorem Keeps.slot (hinum : 0 < F a → x.inum = (s.inode a).inum)
    (hdisk : Disk s → Disk (s.slot a x)) : Keeps F Eq s (s.slot a x) where
  sb := rfl
  file := rfl
  proc := rfl
  inum b hb := by
    by_cases hba : b = a
    · subst hba
      rw [slot_self]
      exact hinum hb
    · rw [slot_of_ne s x hba]
  disk hd := ⟨hdisk hd, rfl⟩

theorem Held.slot (h : Held G L s) (hG : ∀ b, b ≠ a → G' b = G b) (hx : x.ref = G' a)
    (hnn : 0 ≤ G' a) (hL : ∀ b ∈ L', b ≠ a → b ∈ L)
    (ha : a ∈ L' → x.locked = true ∧ x.valid = true ∧ 0 < G' a) : Held G' L' (s.slot a x) where
  ref b := by
    by_cases hb : b = a
    · subst hb
      rw [slot_self, hx]
    · rw [slot_of_ne s x hb, h.ref b, hG b hb]
  nonneg b := by
    by_cases hb : b = a
    · rwa [hb]
    · rw [hG b hb]
      exact h.nonneg b
  lock b hbL := by
    by_cases hb : b = a
    · subst hb
      rw [slot_self]
      exact ha hbL
    · rw [slot_of_ne s x hb, hG b hb]
      exact h.lock b (hL b hbL hb)

theorem Held.add_one (h : Held G L s) (hx : x.ref = (s.inode a).ref + 1)
    (ha : a ∈ L → x.locked = true ∧ x.valid = true) : Held (G + one a) L (s.slot a x) := by
  have hG : (G + one a) a = G a + 1 := by rw [Pi.add_apply, one_self]
  have hnn := h.nonneg a
  refine h.slot (fun b hb => ?_) ?_ (by omega) (fun b hb _ => hb) fun haL => ?_
  · rw [Pi.add_apply, one_of_ne hb, Int.add_zero]
  · rw [hG, hx, h.ref a]
  · exact ⟨(ha haL).1, (ha haL).2, by omega⟩

theorem Held.congr (h : Held G L s) (he : s₁.inode = s.inode) : Held G L s₁ :=
  ⟨fun b => by rw [he]; exact h.ref b, h.nonneg, fun b hb => by rw [he]; exact h.lock b hb⟩

theorem Held.copy (h : Held G L s) (d : Dinode)
    (he : s₁.inode = update s.inode a { s.inode a with copy := d }) : Held G L s₁ :=
  Held.congr (s := s.slot a { s.inode a with copy := d })
    (h.slot (fun _ _ => rfl) (h.ref a) (h.nonneg a) (fun _ hb _ => hb) fun ha => h.lock a ha) he

theorem inum_copy {b : Fin ninode} {d : Dinode}
    (he : s₁.inode = update s.inode a { s.inode a with copy := d }) :
    (s₁.inode b).inum = (s.inode b).inum := by
  rw [he]
  by_cases hb : b = a
  · subst hb
    rw [update_self]
  · rw [update_of_ne hb]

/-- On a disk that is not well formed there is nothing to say about the nodes. -/
theorem Keeps.of_not_disk (hd : ¬ Disk s) {d : Dinode} (hsb : s₁.sb = s.sb)
    (hfile : s₁.file = s.file) (hproc : s₁.proc = s.proc)
    (he : s₁.inode = update s.inode a { s.inode a with copy := d }) : Keeps F P s s₁ :=
  ⟨hsb, hfile, hproc, fun _ _ => inum_copy he, fun h => absurd h hd⟩

end Keeps

/-! ## References -/

section Specs

variable {G : Fin ninode → Int} {L : List (Fin ninode)} {s : State} {a : Fin ninode}

theorem iget_spec (h : Held G L s) (inum : Nat) :
    Wp (iget inum) s
      (fun a s' => Held (G + one a) L s' ∧ Keeps G Eq s s' ∧ (s'.inode a).inum = inum) := by
  unfold iget
  rw [wp_bind, wp_get]
  cases hf : (List.finRange ninode).find? fun ip =>
      decide (0 < (s.inode ip).ref ∧ (s.inode ip).inum = inum) with
  | some a =>
    have ha : 0 < (s.inode a).ref ∧ (s.inode a).inum = inum := by simpa using List.find?_some hf
    simp only [wp_bind, wp_setInode, wp_pure]
    refine ⟨?_, ?_, ?_⟩
    · refine h.add_one rfl fun haL => ?_
      obtain ⟨hl, hv, -⟩ := h.lock a haL
      exact ⟨hl, hv⟩
    · exact .slot (fun _ => rfl) fun hd => hd.slot_same rfl (fun _ => ha.1) fun _ hv =>
        hd.cached a ha.1 hv
    · rw [slot_self]
      exact ha.2
  | none =>
    have hnone := List.find?_eq_none.mp hf
    simp only [decide_eq_true_eq, not_and] at hnone
    cases hz : (List.finRange ninode).find? fun ip => decide ((s.inode ip).ref = 0) with
    | none => trivial
    | some a =>
      have ha : (s.inode a).ref = 0 := by simpa using List.find?_some hz
      have hG : G a = 0 := by rw [← h.ref a, ha]
      simp only [wp_bind, wp_setInode, wp_pure]
      refine ⟨?_, ?_, ?_⟩
      · exact h.add_one (by rw [ha]; rfl) fun haL => absurd (h.lock a haL).2.2 (by omega)
      · refine .slot (fun hpos => absurd hpos (by omega)) fun hd => hd.slot (fun _ hv => by cases hv)
          fun b _ _ hr he => hnone b (List.mem_finRange b) hr he
      · rw [slot_self]

theorem idup_spec (h : Held G L s) (hpos : 0 < G a) :
    Wp (idup a) s (fun b s' => b = a ∧ Held (G + one a) L s' ∧ Keeps G Eq s s') := by
  unfold idup
  simp only [wp_bind, wp_getInode, wp_setInode, wp_pure, true_and]
  have href : 0 < (s.inode a).ref := by rwa [h.ref a]
  refine ⟨h.add_one rfl fun haL => ?_, ?_⟩
  · obtain ⟨hl, hv, -⟩ := h.lock a haL
    exact ⟨hl, hv⟩
  · exact .slot (fun _ => rfl) fun hd => hd.slot_same rfl (fun _ => href) fun _ hv =>
      hd.cached a href hv

/-! ## Locks -/

/-- Slot `a` as `ilock` leaves it. -/
def State.locked (s : State) (a : Fin ninode) : Inode :=
  { s.inode a with
    locked := true
    valid := true
    copy := if (s.inode a).valid then (s.inode a).copy else s.dinode (s.inode a).inum }

theorem ilock_spec :
    Wp (ilock a) s
      (fun _ s' => 0 < (s.inode a).ref ∧ (s.inode a).locked = false ∧
        ((s.inode a).valid = false → (s.dinode (s.inode a).inum).type ≠ none) ∧
        s' = s.slot a (s.locked a))
      fun _ => (s.inode a).ref < 1 ∨ (s.inode a).locked = true ∨
        (s.inode a).valid = false ∧ (s.dinode (s.inode a).inum).type = none := by
  unfold ilock acquiresleep
  simp only [wp_bind, wp_getInode]
  by_cases href : (s.inode a).ref < 1
  · rw [if_pos href]
    exact .inl href
  rw [if_neg href]
  simp only [wp_bind, wp_getInode]
  by_cases hlock : (s.inode a).locked = true
  · rw [if_pos hlock]
    exact .inr (.inl hlock)
  rw [if_neg hlock]
  have hlock : (s.inode a).locked = false := by simpa using hlock
  have href : 0 < (s.inode a).ref := by omega
  simp only [wp_setInode, wp_get, slot_self]
  by_cases hv : (s.inode a).valid = true
  · simp only [hv, if_true, wp_pure]
    refine ⟨href, hlock, (fun h => by cases h), ?_⟩
    simp only [State.locked, hv, if_true]
  have hv : (s.inode a).valid = false := by simpa using hv
  simp only [hv, Bool.false_eq_true, if_false, wp_bind, wp_setInode]
  by_cases ht : (s.dinode (s.inode a).inum).type = none
  · rw [if_pos (by exact ht)]
    exact .inr (.inr ⟨trivial, ht⟩)
  · rw [if_neg (by exact ht)]
    refine ⟨href, hlock, fun _ => ht, ?_⟩
    rw [slot_slot]
    simp only [State.locked, hv, Bool.false_eq_true, if_false]
    rfl

/-- `ilock(ip)`: the caller now has the inode locked, and did not before. -/
theorem ilock_held (h : Held G L s) (F : Fin ninode → Int) :
    Wp (ilock a) s (fun _ s' => a ∉ L ∧ Held G (a :: L) s' ∧ Keeps F Eq s s') := by
  refine ilock_spec.mono ?_ fun _ _ => trivial
  rintro _ _ ⟨href, hlock, ht, rfl⟩
  refine ⟨fun haL => ?_, h.slot (fun _ _ => rfl) (h.ref a) (h.nonneg a) (fun b hb hne => ?_) fun _ => ?_,
    ?_⟩
  · rw [(h.lock a haL).1] at hlock
    cases hlock
  · exact (List.mem_cons.mp hb).resolve_left hne
  · exact ⟨rfl, rfl, by rwa [← h.ref a]⟩
  · refine .slot (fun _ => rfl) fun hd => hd.slot_same rfl (fun _ => href) fun _ _ => ?_
    by_cases hv : (s.inode a).valid = true
    · simpa only [State.locked, hv, if_true] using hd.cached a href hv
    · have hv : (s.inode a).valid = false := by simpa using hv
      simpa only [State.locked, hv, Bool.false_eq_true, if_false, true_and] using ht hv

theorem iunlock_spec :
    Wp (iunlock a) s
      (fun _ s' => s' = s.slot a { s.inode a with locked := false })
      fun _ => (s.inode a).locked = false ∨ (s.inode a).ref < 1 := by
  unfold iunlock
  simp only [wp_bind, wp_getInode]
  split
  case isTrue h => simpa using h
  case isFalse => rfl

/-- `iunlock(ip)`: of the inodes that were locked, those of `L'` are left. -/
theorem iunlock_held (h : Held G L s) (F : Fin ninode → Int) (L' : List (Fin ninode))
    (hL : ∀ b ∈ L', b ∈ L) (ha : a ∉ L') :
    Wp (iunlock a) s (fun _ s' => Held G L' s' ∧ Keeps F Eq s s') := by
  refine iunlock_spec.mono ?_ fun _ _ => trivial
  rintro _ _ rfl
  refine ⟨h.slot (fun _ _ => rfl) (h.ref a) (h.nonneg a) (fun b hb _ => hL b hb)
    fun h => absurd h ha, ?_⟩
  exact .slot (fun _ => rfl) fun hd => hd.slot_same rfl id fun href hv => hd.cached a href hv

/-! ## Giving a reference back -/

/-- Slot `a` as it is once its inode, truncated to `d`, is free. -/
def State.freed (s : State) (a : Fin ninode) (v : Vol) (d : Dinode) : State :=
  { s.slot a { s.inode a with locked := false, valid := false, ref := 0, copy := d } with
    vol := v
    dinode := update s.dinode (s.inode a).inum d }

theorem iput_spec :
    Wp (iput a) s
      (fun _ s' => (s.inode a).locked = false ∧
        (s' = s.slot a { s.inode a with ref := (s.inode a).ref - 1 } ∨
          (s.inode a).valid = true ∧ (s.inode a).copy.nlink = 0 ∧ (s.inode a).ref = 1 ∧
            ∃ v d, itrunc s.vol (s.inode a).copy = .ok (v, d) ∧
              s' = s.freed a v { d with type := none })) := by
  unfold iput acquiresleep
  simp only [wp_bind, wp_getInode]
  by_cases hlock : (s.inode a).locked = true
  · rw [if_pos hlock]
    trivial
  rw [if_neg hlock]
  have hlock : (s.inode a).locked = false := by simpa using hlock
  simp only [wp_setInode, wp_when, slot_self, slot_slot]
  split
  case isTrue hc =>
    obtain ⟨hv, hn, hr⟩ := hc
    unfold ifree itruncInode
    simp only [wp_bind, wp_get, wp_liftM, slot_self]
    cases ht : itrunc (s.slot a _).vol (s.inode a).copy with
    | error e => trivial
    | ok r =>
      obtain ⟨v, d⟩ := r
      simp only [ends_ok, wp_set, wp_setCopy, wp_iupdate, wp_getInode, wp_setInode]
      refine ⟨hlock, .inr ⟨hv, hn, hr, v, d, ht, ?_⟩⟩
      simp only [State.freed, State.slot, update_idem, update_self, hr, Int.sub_self]
  case isFalse => exact ⟨hlock, .inl (by simp only [hlock])⟩

variable {d : Dinode}

theorem Disk.freed (h : Disk s) (hv : (s.inode a).valid = true) (hr : (s.inode a).ref = 1)
    {v : Vol} (ht : itrunc s.vol (s.inode a).copy = .ok (v, d)) :
    Disk (s.freed a v { d with type := none }) ∧
      (s.freed a v { d with type := none }).nodes
        = update s.nodes (s.inode a).inum none := by
  have hpos : 0 < (s.inode a).ref := by omega
  obtain ⟨hcopy, hused⟩ := h.cached a hpos hv
  rw [hcopy] at ht
  obtain ⟨hd, hown, hdata⟩ := (itrunc_spec h.own rfl hused).ok ht
  have hothers : ∀ j, j ≠ (s.inode a).inum → ∀ k,
      ptrs (update s.dinode (s.inode a).inum { d with type := none }) v.data (j, k)
        = ptrs s.dinode s.vol.data (j, k) := by
    intro j hj k
    rw [ptrs_update_of_ne hj]
    show ptrs s.dinode v.data (j, k) = _
    rw [show v.data = s.vol.data from hdata]
  have hnodes : (s.freed a v { d with type := none }).nodes
      = update s.nodes (s.inode a).inum none := by
    funext j
    show nodeOf (update s.dinode (s.inode a).inum _) v.data j = _
    by_cases hj : j = (s.inode a).inum
    · subst hj
      simp only [nodeOf, update_self, Option.map_none]
    · rw [update_of_ne hj]
      refine nodeOf_congr (update_of_ne hj ..) (h.covers j) (hothers j hj) fun bn _ => ?_
      rw [show v.data = s.vol.data from hdata]
  refine ⟨⟨?_, ?_, ?_, ?_⟩, hnodes⟩
  · -- an inode without blocks and a free inode have the same pointers, none
    refine hown.congr ?_
    rintro ⟨j, k⟩
    show ptrs (update s.dinode (s.inode a).inum { d with type := none }) v.data (j, k) = _
    by_cases hj : j = (s.inode a).inum
    · have hnone : ptrs (update s.dinode (s.inode a).inum { d with type := none }) v.data
          (j, k) = 0 := by simp [hj, ptrs]
      have hd : d = _ := hd
      rw [hnone, hj, ptrs_update_self (by rw [hd]; exact hused),
        Dinode.ptr_of_addrs _ fun k => by rw [hd]]
    · rw [ptrs_update_of_ne hj, ptrs_update_of_ne hj]
  · intro j ht
    have hj : j ≠ (s.inode a).inum := by
      rintro rfl
      simp [State.freed] at ht
    have hsame : (s.freed a v { d with type := none }).dinode j = s.dinode j :=
      update_of_ne hj ..
    rw [hsame] at ht ⊢
    intro bn
    show ptrs (update s.dinode (s.inode a).inum { d with type := none }) v.data _ ≠ 0 ↔ _
    rw [hothers j hj]
    exact h.covers j ht bn
  · intro b hbr hbv
    have hb : b ≠ a := by
      rintro rfl
      simp [State.freed] at hbv
    have hsame : (s.freed a v { d with type := none }).inode b = s.inode b := slot_of_ne s _ hb
    rw [hsame] at hbr hbv ⊢
    have hne : (s.inode b).inum ≠ (s.inode a).inum := fun he => hb (h.unique b a hbr hpos he)
    have hino : (s.freed a v { d with type := none }).dinode (s.inode b).inum
        = s.dinode (s.inode b).inum := update_of_ne hne ..
    rw [hino]
    exact h.cached b hbr hbv
  · intro b c hbr hcr he
    have hne : ∀ b, 0 < ((s.freed a v { d with type := none }).inode b).ref → b ≠ a := by
      rintro b hbr rfl
      simp [State.freed] at hbr
    have hsame : ∀ b, b ≠ a → (s.freed a v { d with type := none }).inode b = s.inode b :=
      fun b hb => slot_of_ne s _ hb
    have hb := hne b hbr
    have hc := hne c hcr
    rw [hsame b hb] at hbr he
    rw [hsame c hc] at hcr he
    exact h.unique b c hbr hcr he

theorem sub_one_of_ne {b : Fin ninode} (hb : b ≠ a) : (G - one a) b = G b := by
  rw [Pi.sub_apply, one_of_ne hb, Int.sub_zero]

theorem sub_one_self (G : Fin ninode → Int) (a : Fin ninode) : (G - one a) a = G a - 1 := by
  rw [Pi.sub_apply, one_self]

/-- Slot `a` gives a reference back, and nothing else changes. -/
theorem Held.sub_one (h : Held G L s) (hpos : 0 < G a) (haL : a ∉ L) :
    Held (G - one a) L (s.slot a { s.inode a with ref := (s.inode a).ref - 1 }) := by
  refine h.slot (fun b hb => sub_one_of_ne hb) ?_ ?_ (fun b hb _ => hb) fun h => absurd h haL
  · rw [sub_one_self, h.ref a]
  · rw [sub_one_self]
    omega

theorem Keeps.sub_one (F : Fin ninode → Int) (href : 0 < (s.inode a).ref) :
    Keeps F Eq s (s.slot a { s.inode a with ref := (s.inode a).ref - 1 }) :=
  .slot (fun _ => rfl) fun hd => hd.slot_same rfl (fun _ => href) fun _ hv => hd.cached a href hv

/-- `iput(ip)`: the caller has one reference less, and the inode may be freed with it. -/
theorem iput_held (h : Held G L s) (hpos : 0 < G a) :
    Wp (iput a) s
      (fun _ s' => Held (G - one a) L s' ∧ Frees (G - one a) s s') := by
  refine iput_spec.mono ?_ fun _ _ => trivial
  rintro _ s' ⟨hlock, hs'⟩
  have haL : a ∉ L := by
    intro haL
    rw [(h.lock a haL).1] at hlock
    cases hlock
  have hG : ∀ b, b ≠ a → (G - one a) b = G b := fun b hb => sub_one_of_ne hb
  have hGa : (G - one a) a = G a - 1 := sub_one_self G a
  have href : 0 < (s.inode a).ref := by rwa [h.ref a]
  obtain rfl | ⟨hv, hn, hr, v, d, ht, rfl⟩ := hs'
  · exact ⟨h.sub_one hpos haL, (Keeps.sub_one _ href).frees⟩
  refine ⟨?_, rfl, rfl, rfl, fun b hb => ?_, fun hd => ?_⟩
  · refine Held.congr (s := s.slot a _)
      (h.slot hG ?_ (by omega) (fun b hb _ => hb) fun h => absurd h haL) rfl
    rw [hGa, ← h.ref a, hr]
    rfl
  · have hba : b ≠ a := by
      rintro rfl
      rw [hGa, ← h.ref b, hr] at hb
      omega
    exact congrArg Inode.inum (slot_of_ne s _ hba)
  · obtain ⟨hd', hnodes⟩ := hd.freed hv hr ht
    refine ⟨hd', fun i => ?_⟩
    rw [hnodes]
    by_cases hi : i = (s.inode a).inum
    · subst hi
      refine .inr ⟨update_self .., ?_, ?_⟩
      · rintro ⟨b, hb, he⟩
        have hba : b ≠ a := by
          rintro rfl
          rw [hGa, ← h.ref b, hr] at hb
          omega
        rw [hG b hba, ← h.ref b] at hb
        exact hba (hd.unique b a hb href he)
      · obtain ⟨hcopy, hused⟩ := hd.cached a href hv
        obtain ⟨type, ht⟩ := Option.ne_none_iff_exists'.mp hused
        exact ⟨_, nodes_eq_some ht, by rw [← hcopy]; exact hn⟩
    · exact .inl (update_of_ne hi ..)

theorem iunlockput_held (h : Held G L s) (ha : a ∈ L) (L' : List (Fin ninode))
    (hL : ∀ b ∈ L', b ∈ L) (ha' : a ∉ L') :
    Wp (iunlockput a) s
      (fun _ s' => Held (G - one a) L' s' ∧ Frees (G - one a) s s') := by
  unfold iunlockput
  refine (iunlock_held h (G - one a) L' hL ha').next ?_
  rintro _ s₁ ⟨h1, hk⟩
  refine (iput_held h1 (h.lock a ha).2.2).imp ?_
  rintro _ s₂ ⟨h2, hk2⟩
  exact ⟨h2, hk.frees.trans hk2⟩

/-! ## Contents -/

/-- What `readi` returns for a file or directory `m`. -/
def Node.read (m : Node) (off n : Nat) : Int × List Byte :=
  if m.bytes.length < off ∨ 2 ^ 32 ≤ off + n then (-1, [])
  else ((min n (m.bytes.length - off) : Nat), (m.bytes.drop off).take n)

/-- `readi(ip, dst, off, n)` returns the bytes of the file and changes nothing. -/
theorem readi_held (h : Held G L s) (ha : a ∈ L) (F : Fin ninode → Int) (off n : Nat) (io : DevIo) :
    Wp (readi a off n io) s
      (fun r s' => Held G L s' ∧ Keeps F Eq s s' ∧
        (Disk s → s' = s ∧ ∀ m, s.nodes (s.inode a).inum = some m → m.type ≠ .dev → r = m.read off n))
      fun _ => ¬ Disk s := by
  obtain ⟨-, hv, hpos⟩ := h.lock a ha
  have href : 0 < (s.inode a).ref := by rwa [h.ref a]
  unfold readi
  simp only [wp_bind, wp_get]
  by_cases hd : Disk s
  · obtain ⟨hcopy, hused⟩ := hd.cached a href hv
    obtain ⟨type, ht⟩ := Option.ne_none_iff_exists'.mp hused
    have hnode := nodes_eq_some ht
    have hct : (s.inode a).copy.type = some type := by rw [hcopy, ht]
    have hsize : (s.inode a).copy.size = (s.dinode (s.inode a).inum).size := by rw [hcopy]
    -- whatever is returned, the state is the same
    suffices hread : ∀ r : Int × List Byte, (type ≠ .dev → r = Node.read
        ⟨type, (s.dinode (s.inode a).inum).nlink, bytes s.dinode s.vol.data (s.inode a).inum 0
          (s.dinode (s.inode a).inum).size⟩ off n) →
        Held G L s ∧ Keeps F Eq s s ∧ (Disk s → s = s ∧
          ∀ m, s.nodes (s.inode a).inum = some m → m.type ≠ .dev → r = m.read off n) by
      rw [hct]
      split
      case isTrue hdev =>
        have hdev : type = .dev := Option.some.inj hdev
        split <;> exact hread _ fun h => absurd hdev h
      case isFalse =>
        split
        case isTrue hout =>
          refine hread _ fun _ => ?_
          rw [hsize] at hout
          rw [Node.read, if_pos (by rwa [length_bytes])]
        case isFalse hin =>
          rw [hsize] at hin ⊢
          have hloop := readLoop_eq hd.own hcopy.symm (by rwa [hcopy]) (hd.covers _ hused)
            (show off + min n ((s.dinode (s.inode a).inum).size - off)
              ≤ (s.dinode (s.inode a).inum).size by omega) (Nat.le_refl _)
          simp only [wp_bind, wp_liftM, hloop, ends_ok, wp_set, wp_setCopy, wp_pure]
          have hsame : State.slot { s with vol := s.vol } a
              { s.inode a with copy := (s.inode a).copy } = s := by
            show { s with inode := update s.inode a (s.inode a) } = s
            rw [update_eq_self]
          rw [hsame]
          refine hread _ fun _ => ?_
          rw [Node.read, if_neg (by rwa [length_bytes]), length_bytes, take_drop_bytes]
    intro r hr
    refine ⟨h, .refl F s, fun _ => ⟨rfl, fun m hm hdev => ?_⟩⟩
    rw [hnode] at hm
    cases hm
    exact hr hdev
  · split
    case isTrue => split <;> exact ⟨h, .refl F s, fun h => absurd h hd⟩
    case isFalse =>
      split
      case isTrue => exact ⟨h, .refl F s, fun h => absurd h hd⟩
      case isFalse =>
        simp only [wp_bind, wp_liftM]
        cases readLoop s.sb _ s.vol (s.inode a).copy off _ with
        | error => exact hd
        | ok r => exact ⟨h.copy r.2.2 rfl, .of_not_disk hd rfl rfl rfl rfl, fun h => absurd h hd⟩

/-- What `writei(ip, src, off, n)` with result `r` does to the nodes: nothing, or the write. -/
def Wrote (i off : Nat) (src : List Byte) (r : Int) (N N' : Nodes) : Prop :=
  ∃ m, N i = some m ∧
    (N' = N ∧ (m.type = .dev ∨
        r = -1 ∧ (m.bytes.length < off ∨ maxfile * bsize < off + src.length)) ∨
      m.type ≠ .dev ∧ r = src.length ∧ off ≤ m.bytes.length ∧
        N' = update N i (some { m with bytes := splice m.bytes src off }))

/-- There are blocks enough for the file of inode `i` to reach up to `e`. -/
def State.enough (s : State) (i e : Nat) : Prop :=
  blocks e + (s.dinode i).extra e ≤ s.vol.free s.sb + blocks (s.dinode i).size

/-- A write whose loop ended: the copy, with its new size, is also on disk. -/
theorem Disk.written (hd : Disk s) (href : 0 < (s.inode a).ref) {type : FileType}
    (ht : (s.dinode (s.inode a).inum).type = some type) {v : Vol} {off : Nat}
    {src : List Byte} (hoff : off ≤ (s.dinode (s.inode a).inum).size)
    (hw : Written s.sb s.vol s.dinode (s.inode a).inum (s.dinode (s.inode a).inum)
      (s.dinode (s.inode a).inum).size off src v d) {d' : Dinode}
    (hd' : d' = { d with size := max (s.dinode (s.inode a).inum).size (off + src.length) }) :
    Disk (s.store a v d') ∧
      (s.store a v d').nodes = update s.nodes (s.inode a).inum
        (some ⟨type, (s.dinode (s.inode a).inum).nlink,
          splice (bytes s.dinode s.vol.data (s.inode a).inum 0 (s.dinode (s.inode a).inum).size)
            src off⟩) := by
  have hdt : d.type = some type := by
    rw [hw.addrs]
    exact ht
  have hptrs : ptrs (update s.dinode (s.inode a).inum d') v.data
      = ptrs (update s.dinode (s.inode a).inum d) v.data :=
    ptrs_update_congr (by rw [hd']) (by rw [hd'])
  have hothers : ∀ j, j ≠ (s.inode a).inum → ∀ k,
      ptrs (update s.dinode (s.inode a).inum d') v.data (j, k)
        = ptrs s.dinode s.vol.data (j, k) := fun j hj k => by
    rw [hptrs]
    exact hw.others j hj k
  constructor
  · refine hd.store href (hw.own.congr fun k => by rw [hptrs]) (by rw [hd']; simp [hdt]) ?_ hothers
    intro bn
    rw [hptrs, hd']
    exact hw.covers bn
  have hbytes : bytes (update s.dinode (s.inode a).inum d') v.data
      = bytes (update s.dinode (s.inode a).inum d) v.data := by
    funext i off n
    simp only [bytes, byteAt, hptrs]
  have hnlink : d'.nlink = (s.dinode (s.inode a).inum).nlink := by
    rw [hd', hw.addrs]
  rw [nodes_store hd (show d'.type = some type by rw [hd']; exact hdt) hothers hw.data, hbytes, hnlink,
    ← hw.bytes_eq hoff, hd']

theorem writei_held (h : Held G L s) (ha : a ∈ L) (F : Fin ninode → Int) (off : Nat)
    (src : List Byte) :
    Wp (writei a off src) s
      (fun r s' => Held G L s' ∧ Keeps F (Wrote (s.inode a).inum off src r) s s' ∧
        (∃ d, s'.inode = update s.inode a { s.inode a with copy := d }) ∧
        (Disk s → ∀ e, off + src.length ≤ e → s.enough (s.inode a).inum e →
          s'.enough (s.inode a).inum e))
      fun _ => Disk s → ¬ s.enough (s.inode a).inum (off + src.length) := by
  obtain ⟨-, hv, hpos⟩ := h.lock a ha
  have href : 0 < (s.inode a).ref := by rwa [h.ref a]
  have hsame : s.inode = update s.inode a { s.inode a with copy := (s.inode a).copy } :=
    (update_eq_self ..).symm
  unfold writei
  simp only [wp_bind, wp_get]
  by_cases hd : Disk s
  · obtain ⟨hcopy, hused⟩ := hd.cached a href hv
    obtain ⟨type, ht⟩ := Option.ne_none_iff_exists'.mp hused
    have hnode := nodes_eq_some ht
    have hsize : (s.inode a).copy.size = (s.dinode (s.inode a).inum).size := by rw [hcopy]
    -- nothing is written
    have hstay : ∀ r : Int, (type = .dev ∨ r = -1 ∧ ((s.dinode (s.inode a).inum).size < off ∨
        maxfile * bsize < off + src.length)) →
        Held G L s ∧ Keeps F (Wrote (s.inode a).inum off src r) s s ∧
          (∃ d, s.inode = update s.inode a { s.inode a with copy := d }) ∧
          (Disk s → ∀ e, off + src.length ≤ e → s.enough (s.inode a).inum e →
            s.enough (s.inode a).inum e) := fun r hr =>
      ⟨h, (Keeps.refl F s).imp fun _ => ⟨_, hnode, .inl ⟨rfl, by rwa [length_bytes]⟩⟩, ⟨_, hsame⟩,
        fun _ _ _ h => h⟩
    rw [show (s.inode a).copy.type = some type by rw [hcopy, ht]]
    split
    case isTrue hdev =>
      have hdev : type = .dev := Option.some.inj hdev
      split <;> exact hstay _ (.inl hdev)
    case isFalse hdev =>
      have hdev : type ≠ .dev := fun h => hdev (congrArg some h)
      rw [hsize]
      split
      case isTrue hout =>
        refine hstay _ (.inr ⟨rfl, hout.imp id fun hbig => ?_⟩)
        have : maxfile * bsize < 2 ^ 32 := by decide
        omega
      case isFalse hin =>
        split
        case isTrue hbig => exact hstay _ (.inr ⟨rfl, .inr hbig⟩)
        case isFalse hbig =>
          simp only [wp_bind, wp_liftM]
          rw [hcopy]
          refine (writeLoop_spec hd.own rfl hused (hd.covers _ hused)
            (by omega) (show off + src.length ≤ _ by omega) (Nat.le_refl _)).mono ?_ ?_
          · rintro ⟨v, d⟩ hw
            have hw : Written s.sb s.vol s.dinode (s.inode a).inum (s.dinode (s.inode a).inum)
              (s.dinode (s.inode a).inum).size off src v d := hw
            have hdsize : d.size = (s.dinode (s.inode a).inum).size := by rw [hw.addrs]
            obtain ⟨d', hd'⟩ : ∃ d', d' = { d with
              size := max (s.dinode (s.inode a).inum).size (off + src.length) } := ⟨_, rfl⟩
            obtain ⟨hdisk, hnodes⟩ := hd.written href ht (by omega) hw hd'
            suffices hfinal : Held G L (s.store a v d') ∧
                Keeps F (Wrote (s.inode a).inum off src src.length) s (s.store a v d') ∧
                (∃ d, (s.store a v d').inode
                  = update s.inode a { s.inode a with copy := d }) ∧
                (Disk s → ∀ e, off + src.length ≤ e → s.enough (s.inode a).inum e →
                  (s.store a v d').enough (s.inode a).inum e) by
              simp only [wp_bind, wp_set, wp_setCopy, wp_when, wp_iupdate, wp_pure, slot_self,
                slot_slot]
              split
              case isTrue hgrow =>
                have hmax : d' = { d with size := off + src.length } := by
                  rw [hd']
                  congr 1
                  omega
                rw [hmax] at hfinal
                exact hfinal
              case isFalse hstill =>
                have hle : off + src.length ≤ (s.dinode (s.inode a).inum).size := by omega
                have hsame' : d' = s.dinode (s.inode a).inum := by
                  rw [hd', hw.same hle, Nat.max_eq_left hle]
                have hstate : s.store a v d' = State.slot { s with vol := v } a
                    { s.inode a with copy := d } := by
                  rw [hsame', hw.same hle, State.store, update_eq_self]
                  rfl
                rw [hstate] at hfinal
                exact hfinal
            refine ⟨h.copy d' rfl, ⟨rfl, rfl, rfl, fun _ _ => inum_copy rfl, fun _ => ⟨hdisk, _, hnode,
              .inr ⟨hdev, rfl, ?_, hnodes⟩⟩⟩, ⟨_, rfl⟩, fun _ e he hen => ?_⟩
            · rw [length_bytes]
              omega
            have hroom := hw.room e he
            unfold State.enough at hen ⊢
            have hdi : (s.store a v d').dinode (s.inode a).inum = d' := update_self ..
            have hsz : d'.size = max (s.dinode (s.inode a).inum).size (off + src.length) := by
              rw [hd']
            have hex : d'.extra e = d.extra e := by
              rw [hd']
              rfl
            rw [hdi, hsz, hex]
            show _ ≤ v.free s.sb + _
            omega
          · intro _ he _ hen
            unfold State.enough at hen
            omega
  · split
    case isTrue =>
      split <;> exact ⟨h, .of_not_disk hd rfl rfl rfl hsame, ⟨_, hsame⟩, fun h => absurd h hd⟩
    case isFalse =>
      split
      case isTrue => exact ⟨h, .of_not_disk hd rfl rfl rfl hsame, ⟨_, hsame⟩, fun h => absurd h hd⟩
      case isFalse =>
        split
        case isTrue =>
          exact ⟨h, .of_not_disk hd rfl rfl rfl hsame, ⟨_, hsame⟩, fun h => absurd h hd⟩
        case isFalse =>
          simp only [wp_bind, wp_liftM]
          cases writeLoop s.sb _ s.vol (s.inode a).copy off src with
          | error => exact fun h => absurd h hd
          | ok r =>
            simp only [ends_ok, wp_bind, wp_set, wp_setCopy, wp_when, wp_iupdate, wp_pure, slot_self,
              slot_slot]
            split
            case isTrue =>
              exact ⟨h.copy _ rfl, .of_not_disk hd rfl rfl rfl rfl, ⟨_, rfl⟩, fun h => absurd h hd⟩
            case isFalse =>
              exact ⟨h.copy _ rfl, .of_not_disk hd rfl rfl rfl rfl, ⟨_, rfl⟩, fun h => absurd h hd⟩

/-! ## Allocating, and changing what is not content -/

theorem Disk.alloc (h : Disk s) {i : Nat} (hfree : (s.dinode i).type = none) (type : FileType) :
    Disk { s with dinode := update s.dinode i { Dinode.zero with type := some type } } ∧
      State.nodes { s with
        dinode := update s.dinode i { Dinode.zero with type := some type } }
        = update s.nodes i (some ⟨type, 0, []⟩) := by
  have hptrs : ptrs (update s.dinode i { Dinode.zero with type := some type }) s.vol.data
      = ptrs s.dinode s.vol.data := by
    funext ⟨j, k⟩
    by_cases hj : j = i
    · subst hj
      rw [ptrs_update_self (by simp), Dinode.ptr_of_addrs _ fun _ => rfl]
      simp [ptrs, hfree]
    · exact ptrs_update_of_ne hj
  refine ⟨⟨h.own.congr fun k => by rw [hptrs], fun j => ?_, fun b hb hv => ?_, h.unique⟩, ?_⟩
  · show (update s.dinode i _ j).type ≠ none → ∀ bn, ptrs _ _ _ ≠ 0 ↔
      _ < (update s.dinode i _ j).size
    by_cases hj : j = i
    · subst hj
      intro _ bn
      rw [hptrs, update_self]
      simp [ptrs, hfree, Dinode.zero]
    · rw [update_of_ne hj]
      intro ht bn
      rw [hptrs]
      exact h.covers j ht bn
  · obtain ⟨hcopy, hused⟩ := h.cached b hb hv
    have hne : (s.inode b).inum ≠ i := fun he => hused (he ▸ hfree)
    show _ = update s.dinode i _ (s.inode b).inum ∧
      (update s.dinode i _ (s.inode b).inum).type ≠ none
    rw [update_of_ne hne]
    exact ⟨hcopy, hused⟩
  · funext j
    show nodeOf (update s.dinode i _) s.vol.data j = _
    by_cases hj : j = i
    · subst hj
      simp [nodeOf, Dinode.zero, bytes]
    · rw [update_of_ne hj]
      exact nodeOf_congr (update_of_ne hj ..) (h.covers j) (fun k => by rw [hptrs])
        fun _ _ => rfl

theorem ialloc_held (h : Held G L s) (type : FileType) :
    Wp (ialloc type) s
      (fun a s' => Held (G + one a) L s' ∧
        Keeps G (fun N N' => N (s'.inode a).inum = none ∧
          N' = update N (s'.inode a).inum (some ⟨type, 0, []⟩)) s s' ∧
        0 < (s'.inode a).inum ∧ (s'.inode a).inum < s.sb.ninodes) := by
  unfold ialloc
  rw [wp_bind, wp_get]
  cases hf : (List.range s.sb.ninodes).find? fun inum =>
      decide (0 < inum ∧ (s.dinode inum).type = none) with
  | none => trivial
  | some i =>
    have hi : 0 < i ∧ (s.dinode i).type = none := by simpa using List.find?_some hf
    have hlt : i < s.sb.ninodes := List.mem_range.mp (List.mem_of_find?_eq_some hf)
    simp only [wp_bind, wp_set]
    refine (iget_spec (s := { s with
      dinode := update s.dinode i { Dinode.zero with type := some type } })
      (h.congr rfl) i).imp ?_
    rintro a s' ⟨hheld, hk, rfl⟩
    refine ⟨hheld, ⟨hk.sb, hk.file, hk.proc, hk.inum, fun hd => ?_⟩, hi.1, hlt⟩
    obtain ⟨hd1, hnodes⟩ := hd.alloc hi.2 type
    obtain ⟨hd', he⟩ := hk.disk hd1
    refine ⟨hd', ?_, he ▸ hnodes⟩
    simp [State.nodes, nodeOf, hi.2]

/-- The copy of a locked inode and the inode on disk become `d`, which has the same blocks. -/
theorem store_held (h : Held G L s) (ha : a ∈ L) (F : Fin ninode → Int)
    (ht : d.type = (s.inode a).copy.type) (hs : d.size = (s.inode a).copy.size)
    (had : d.addrs = (s.inode a).copy.addrs) :
    Held G L (s.store a s.vol d) ∧
      Keeps F (fun N N' => ∃ m, N (s.inode a).inum = some m ∧
        N' = update N (s.inode a).inum (some { m with nlink := d.nlink })) s
        (s.store a s.vol d) := by
  obtain ⟨-, hv, hpos⟩ := h.lock a ha
  have href : 0 < (s.inode a).ref := by rwa [h.ref a]
  refine ⟨h.copy d rfl, rfl, rfl, rfl, fun _ _ => inum_copy rfl, fun hd => ?_⟩
  obtain ⟨hcopy, hused⟩ := hd.cached a href hv
  obtain ⟨type, hty⟩ := Option.ne_none_iff_exists'.mp hused
  rw [hcopy] at ht hs had
  have hptrs : ptrs (update s.dinode (s.inode a).inum d) s.vol.data
      = ptrs s.dinode s.vol.data := by
    rw [ptrs_update_congr (d := s.dinode (s.inode a).inum) ht had, update_eq_self]
  have hothers : ∀ j, j ≠ (s.inode a).inum → ∀ k,
      ptrs (update s.dinode (s.inode a).inum d) s.vol.data (j, k)
        = ptrs s.dinode s.vol.data (j, k) := fun j _ k => by rw [hptrs]
  refine ⟨hd.store href (hd.own.congr fun k => by rw [hptrs]) (by rwa [ht]) ?_ hothers, _,
    nodes_eq_some hty, ?_⟩
  · intro bn
    rw [hptrs, hs]
    exact hd.covers _ hused bn
  · have hbytes : bytes (update s.dinode (s.inode a).inum d) s.vol.data
        = bytes s.dinode s.vol.data := by
      funext i off n
      simp only [bytes, byteAt, hptrs]
    rw [nodes_store hd (ht.trans hty) hothers fun _ _ _ _ => rfl, hbytes, hs]

end Specs

end Xv6Mmap.Fs
