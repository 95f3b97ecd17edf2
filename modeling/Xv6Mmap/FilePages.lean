import Xv6Mmap.ForkPages
import Xv6Mmap.WriteBack

/-!
# What a page of a file mapping shows (`trap.c:101-132`)

The handler fills the page it has mapped with `fileread`, which reads from the offset of the file
and moves it: which part of the file a page shows depends on how often the file was read before, and
not on where the page is in the mapping.

* `pgflt_shows`: the page that is touched shows the file from the current offset on.
* `pages_show`: of the pages touched one after the other, the `j`-th shows the file from `4096 * j`
  bytes behind the offset at the beginning.
* `pages_right_iff`: so every page shows its part of the file exactly if these parts agree. A page
  touched out of order shows another part (`second_page_shows_first`).
-/

namespace Xv6Mmap.Machine

open Lib
open Function (update update_self update_of_ne update_eq_self update_idem)

variable {m m' : Machine} {io : MachineIo}

/-! ## Writing a page -/

section Page

variable {va : Word}

theorem vpn_add_ofNat (hal : va.toNat % 4096 = 0) {o : Nat} (ho : o < 4096) :
    vpn (va + BitVec.ofNat 32 o) = vpn va ∧ (va + BitVec.ofNat 32 o).toNat % 4096 = o := by
  have hlt := va.isLt
  unfold vpn
  rw [BitVec.toNat_add, BitVec.toNat_ofNat]
  omega

theorem overwrite_cons (x : Page) (o : Nat) (b : Byte) (bs : List Byte) :
    Fs.overwrite (update x o b) (o + 1) bs = Fs.overwrite x o (b :: bs) := by
  funext j
  unfold Fs.overwrite
  rw [List.length_cons]
  by_cases hj : j = o
  · subst hj
    rw [if_neg (by omega), if_pos (by omega), update_self, Nat.sub_self]
    rfl
  · rw [update_of_ne hj]
    by_cases hin : o + 1 ≤ j ∧ j < o + 1 + bs.length
    · rw [if_pos hin, if_pos (by omega), show j - o = j - (o + 1) + 1 by omega, List.getD_cons_succ]
    · rw [if_neg hin, if_neg (by omega)]

/-- The kernel address of the page at `va`. -/
def pageAt (d : PgDir) (va : Word) : Word := p2v (pteAddr (d.entry (vpn va)))

theorem writeUser_page {d : PgDir} (hal : va.toNat % 4096 = 0)
    (hp : present (d.entry (vpn va)) = true) :
    ∀ (bs : List Byte) (k : Kmem) (o : Nat), o + bs.length ≤ 4096 →
      writeUser d k (va + BitVec.ofNat 32 o) bs
        = .ok { k with
            mem := update k.mem (pageAt d va)
              (Fs.overwrite (k.mem (pageAt d va)) o bs) }
  | [], k, o, _ => by
    have hnone : Fs.overwrite (k.mem (pageAt d va)) o [] = k.mem (pageAt d va) := by
      funext b
      exact if_neg (by rw [List.length_nil]; omega)
    rw [hnone, update_eq_self]
    rfl
  | b :: bs, k, o, h => by
    rw [List.length_cons] at h
    obtain ⟨hvpn, hmod⟩ := vpn_add_ofNat hal (show o < 4096 by omega)
    have hnext : va + BitVec.ofNat 32 o + 1#32 = va + BitVec.ofNat 32 (o + 1) :=
      add_ofNat_add va o 1
    rw [writeUser, hvpn, if_pos hp, hnext, writeUser_page hal hp bs _ _ (by omega)]
    unfold pokeUser
    rw [hvpn, hmod]
    dsimp only
    rw [show p2v (pteAddr (d.entry (vpn va))) = pageAt d va from rfl, update_self,
      update_idem, overwrite_cons]

end Page

/-! ## One fault -/

/-- Slot `l` is a mapping of the file `f`, open for reading on inode `i`, which is `x`. -/
structure FileMapping (m : Machine) (l : Nat) (f : Fin nfile) (i : Nat) (x : Fs.Node) : Prop where
  settled : Fs.Settled m.fs
  opens : m.fs.Opens f i x
  readable : (m.fs.file f).readable = true
  backed : hasFlag (m.proc.maps.arr l).flags mapAnonymous = false
  file : fileAt m.proc (m.proc.maps.arr l).fd = some f
  sound : m.kmem.Sound
  nodup : m.kmem.freelist.Nodup

/-- The page at `va` is there, in use, and shows `bs` from `off` on, and zeros behind its end. -/
structure Shows (m : Machine) (va : Word) (bs : List Byte) (off : Nat) : Prop where
  present : present (m.proc.pgdir.entry (vpn va)) = true
  owned : pageAt m.proc.pgdir va ∉ m.kmem.freelist
  bytes : ∀ b < 4096, m.kmem.mem (pageAt m.proc.pgdir va) b = bs.getD (off + b) 0#8

/-- What a read of a page delivers, and how far it moves the offset. -/
theorem read_page {x : Fs.Node} (hsize : x.bytes.length ≤ Fs.maxfile * Fs.bsize) (off : Nat) :
    (x.read off 4096).2 = (x.bytes.drop off).take 4096 ∧
      (x.read off 4096).1.toNat = min 4096 (x.bytes.length - off) := by
  have hmax : Fs.maxfile * Fs.bsize = 71680 := by decide
  unfold Fs.Node.read
  split
  · rename_i hout
    have hlt : x.bytes.length < off := by omega
    rw [List.drop_of_length_le (by omega)]
    refine ⟨rfl, ?_⟩
    change 0 = _
    omega
  · exact ⟨rfl, rfl⟩

theorem overwrite_zero {bs : List Byte} {off b : Nat} (hb : b < 4096) :
    Fs.overwrite (fun _ => 0#8) 0 ((bs.drop off).take 4096) b = bs.getD (off + b) 0#8 := by
  unfold Fs.overwrite
  rw [List.length_take, List.length_drop]
  by_cases hin : off + b < bs.length
  · rw [if_pos (by omega), Nat.sub_zero, List.getD_eq_getElem _ _ hin,
      List.getD_eq_getElem _ _ (by rw [List.length_take, List.length_drop]; omega),
      List.getElem_take, List.getElem_drop]
  · rw [if_neg (by omega), List.getD_eq_default _ _ (by omega)]

/-- **A page shows the file from the offset on.** -/
theorem pgflt_shows {l : Nat} {f : Fin nfile} {i : Nat} {x : Fs.Node} {va : Word}
    (h : FileMapping m l f i x) (hal : va.toNat % 4096 = 0)
    (hslot : m.proc.maps.faultSlot va = some l)
    (habsent : present (m.proc.pgdir.entry (vpn va)) = false)
    (hroom : 2 ≤ m.kmem.freelist.length) (io : MachineIo) :
    Wp (pgflt va io) m
      (fun _ m' => FileMapping m' l f i x ∧ m'.proc.maps.arr = m.proc.maps.arr ∧
        m.kmem.Drawn m'.kmem 2 ∧ (∀ n, n ≠ vpn va → m'.proc.pgdir.entry n = m.proc.pgdir.entry n) ∧
        Shows m' va x.bytes (m.fs.file f).off ∧
        (m'.fs.file f).off
          = (m.fs.file f).off + min 4096 (x.bytes.length - (m.fs.file f).off))
      fun _ => False := by
  -- the page and its entry
  obtain ⟨mem, k1, k2, d, hnew⟩ :=
    exists_newPage (.fault (m.proc.maps.arr l).rid) hal habsent h.sound h.nodup hroom
  have hpage : pageAt d va = mem := hnew.page
  unfold pgflt pgfltVia
  simp only [wp_bind, wp_get, hslot, hnew.alloc, wp_liftM, hnew.mapped, ends_ok, if_true, wp_set]
  -- the file
  unfold loadFile
  rw [if_neg (by rw [h.backed]; decide)]
  simp only [wp_bind, wp_get, wp_liftM]
  have hfile : fileAt { m.proc with pgdir := d } (m.proc.maps.arr l).fd = some f := h.file
  rw [byFd, hfile]
  dsimp only
  rw [ends_ok]
  unfold fileread
  simp only [wp_bind, wp_onFs, wp_get, wp_liftM, wp_set, wp_modify]
  refine (Fs.fileread_spec h.settled h.opens h.readable 4096 io.toDevIo).imp fun r s' hr => ?_
  obtain ⟨hr, hset, hu, hnodes, -, -, hsfile⟩ := hr
  obtain ⟨hbytes, hmoved⟩ := read_page (h.settled.disk.size_le h.opens.node) (m.fs.file f).off
  obtain ⟨bs, hbs⟩ : ∃ bs, bs = (x.bytes.drop (m.fs.file f).off).take 4096 := ⟨_, rfl⟩
  have hr2 : r.2.take 4096 = bs := by
    rw [hr, hbytes, List.take_take, Nat.min_self, hbs]
  have hbslen : bs.length ≤ 4096 := by
    rw [hbs, List.length_take]
    omega
  have hwrite : writeUser d k2 va bs = .ok { k2 with
      mem := update k2.mem mem (Fs.overwrite (fun _ => 0#8) 0 bs) } := by
    have hpoke := writeUser_page hal hnew.present bs k2 0 (by omega)
    rw [BitVec.add_zero, hpage, hnew.zero] at hpoke
    exact hpoke
  rw [hr2, hwrite, ends_ok]
  rw [hr, hmoved] at hsfile
  have hoff : (s'.file f).off
      = (m.fs.file f).off + min 4096 (x.bytes.length - (m.fs.file f).off) := by
    rw [hsfile, update_self]
  have hdrawn := hnew.drawn.write hnew.free (Fs.overwrite (fun _ => 0#8) 0 bs)
  refine ⟨⟨hset, ?_, ?_, h.backed, h.file, hdrawn.sound h.sound, hdrawn.nodup h.nodup⟩, rfl,
    hdrawn, hnew.other, ⟨hnew.present, ?_, fun b hb => ?_⟩, hoff⟩
  · exact h.opens.after hu hsfile (by rw [hnodes]; exact h.opens.node) h.opens.type
  · rw [Fs.file_moved hsfile f]
    exact h.readable
  · change pageAt d va ∉ k2.freelist
    rw [hpage]
    exact hnew.owned
  · change update k2.mem mem (Fs.overwrite (fun _ => 0#8) 0 bs) (pageAt d va) b = _
    rw [hpage, update_self, hbs]
    exact overwrite_zero hb

/-! ## Pages touched one after the other -/

/-- The pages `ks` of a mapping at `start` are touched, in this order. -/
def touchPages (start : Word) (io : MachineIo) : List Nat → MM Unit
  | [] => return ()
  | k :: ks => do
    pgflt (start + BitVec.ofNat 32 (4096 * k)) io
    touchPages start io ks

/-- The pages `ks` of the mapping at `start` in slot `l` can be touched for the first time: they are
different pages of it, all absent, and there is memory for them. -/
structure FirstTouches (m : Machine) (l : Nat) (start : Word) (ks : List Nat) : Prop where
  aligned : start.toNat % 4096 = 0
  nodup : ks.Nodup
  small : ∀ k ∈ ks, k < 2 ^ 20
  slot : ∀ k ∈ ks, m.proc.maps.faultSlot (start + BitVec.ofNat 32 (4096 * k)) = some l
  absent : ∀ k ∈ ks, present (m.proc.pgdir.entry (pageOf start k)) = false
  room : 2 * ks.length ≤ m.kmem.freelist.length

theorem faultSlot_congr {p p' : Proc} (h : p'.maps.arr = p.maps.arr) (va : Word) :
    p'.maps.faultSlot va = p.maps.faultSlot va := by
  unfold Maps.faultSlot
  rw [h]

section Touches

variable {l i : Nat} {f : Fin nfile} {x : Fs.Node} {start : Word} {k : Nat} {ks : List Nat}

theorem pageAddr_aligned (hal : start.toNat % 4096 = 0) (k : Nat) :
    (start + BitVec.ofNat 32 (4096 * k)).toNat % 4096 = 0 := by
  have hlt := start.isLt
  rw [BitVec.toNat_add, BitVec.toNat_ofNat]
  omega

/-- After the first touch the others are still to come. -/
theorem FirstTouches.tail (h : FirstTouches m l start (k :: ks))
    (harr : m'.proc.maps.arr = m.proc.maps.arr) (hdrawn : m.kmem.Drawn m'.kmem 2)
    (hother : ∀ n, n ≠ pageOf start k → m'.proc.pgdir.entry n = m.proc.pgdir.entry n) :
    FirstTouches m' l start ks := by
  obtain ⟨hout, hnd⟩ := List.nodup_cons.mp h.nodup
  refine ⟨h.aligned, hnd, fun j hj => h.small j (List.mem_cons_of_mem _ hj), fun j hj => ?_,
    fun j hj => ?_, ?_⟩
  · rw [faultSlot_congr harr]
    exact h.slot j (List.mem_cons_of_mem _ hj)
  · rw [hother]
    · exact h.absent j (List.mem_cons_of_mem _ hj)
    · intro heq
      have := pageOf_inj h.aligned (h.small j (List.mem_cons_of_mem _ hj))
        (h.small k List.mem_cons_self) heq
      exact hout (this ▸ hj)
  · have hroom := h.room
    have hlen := hdrawn.length
    rw [List.length_cons] at hroom
    omega

/-- A page that is shown stays as it is while others are touched. -/
theorem Shows.kept {va : Word} {bs : List Byte} {off n : Nat} (h : Shows m va bs off)
    (hentry : m'.proc.pgdir.entry (vpn va) = m.proc.pgdir.entry (vpn va))
    (hdrawn : m.kmem.Drawn m'.kmem n) : Shows m' va bs off := by
  have hpage : pageAt m'.proc.pgdir va = pageAt m.proc.pgdir va := by
    unfold pageAt
    rw [hentry]
  refine ⟨hentry ▸ h.present, ?_, fun b hb => ?_⟩
  · rw [hpage]
    exact hdrawn.not_mem h.owned
  · rw [hpage, hdrawn.bytes _ h.owned]
    exact h.bytes b hb

/-- **The `j`-th page touched shows the file from `4096 * j` bytes behind the first offset on.** -/
theorem pages_show (io : MachineIo) :
    ∀ {ks : List Nat} {m : Machine}, FileMapping m l f i x → FirstTouches m l start ks →
      Wp (touchPages start io ks) m
        (fun _ m' => (∃ n, m.kmem.Drawn m'.kmem n) ∧
          (∀ n, (∀ k ∈ ks, n ≠ pageOf start k) → m'.proc.pgdir.entry n = m.proc.pgdir.entry n) ∧
          ∀ j (hj : j < ks.length), Shows m' (start + BitVec.ofNat 32 (4096 * ks[j])) x.bytes
            ((m.fs.file f).off + 4096 * j))
        fun _ => False
  | [], m, _, _ =>
    ⟨⟨0, .refl _⟩, fun _ _ => rfl, fun j hj => absurd hj (Nat.not_lt_zero j)⟩
  | k :: ks, m, h, ht => by
    rw [touchPages, wp_bind]
    have hroom := ht.room
    rw [List.length_cons] at hroom
    refine (pgflt_shows h (pageAddr_aligned ht.aligned k) (ht.slot k List.mem_cons_self)
      (ht.absent k List.mem_cons_self) (by omega) io).imp fun _ m1 h1 => ?_
    obtain ⟨hmap, harr, hdrawn, hother, hshows, hoff⟩ := h1
    refine (pages_show io hmap (ht.tail harr hdrawn hother)).imp fun _ m2 h2 => ?_
    obtain ⟨⟨n, hdrawn2⟩, hother2, hshows2⟩ := h2
    refine ⟨⟨_, hdrawn.trans hdrawn2⟩, fun n hn => ?_, fun j hj => ?_⟩
    · rw [hother2 n fun k' hk' => hn k' (List.mem_cons_of_mem _ hk')]
      exact hother n (hn k List.mem_cons_self)
    cases j with
    | zero =>
      refine hshows.kept (hother2 _ fun k' hk' heq => ?_) hdrawn2
      have hkk := pageOf_inj ht.aligned (ht.small k List.mem_cons_self)
        (ht.small k' (List.mem_cons_of_mem _ hk')) heq
      exact (List.nodup_cons.mp ht.nodup).1 (hkk ▸ hk')
    | succ j =>
      obtain ⟨hp, howned, hbytes⟩ := hshows2 j (Nat.lt_of_succ_lt_succ hj)
      refine ⟨hp, howned, fun b hb => (hbytes b hb).trans ?_⟩
      rw [hoff]
      -- the offset is a page further, or at the end of the file
      by_cases hfull : 4096 ≤ x.bytes.length - (m.fs.file f).off
      · rw [Nat.min_eq_left hfull]
        congr 1
        omega
      · rw [List.getD_eq_default _ _ (by omega), List.getD_eq_default _ _ (by omega)]

/-- Page `k` shows its own part of the file. -/
def RightPage (m : Machine) (start : Word) (bs : List Byte) (k : Nat) : Prop :=
  ∀ b < 4096, userByte m.kmem m.proc.pgdir (start + BitVec.ofNat 32 (4096 * k + b))
    = bs.getD (4096 * k + b) 0#8

theorem Shows.userByte {bs : List Byte} {off : Nat} (hal : start.toNat % 4096 = 0)
    (h : Shows m (start + BitVec.ofNat 32 (4096 * k)) bs off) {b : Nat} (hb : b < 4096) :
    userByte m.kmem m.proc.pgdir (start + BitVec.ofNat 32 (4096 * k + b))
      = bs.getD (off + b) 0#8 := by
  obtain ⟨hvpn, hmod⟩ := vpn_add_ofNat (pageAddr_aligned hal k) hb
  rw [← add_ofNat_add, ← h.bytes b hb, Machine.userByte, hvpn, hmod]
  rfl

/-- **When every page shows its part of the file**: exactly if the file has, at the place the offset
has reached when the page is touched, the same bytes as at the place of the page. -/
theorem pages_right_iff (m : Machine) (l i : Nat) (f : Fin nfile) (x : Fs.Node) (ks : List Nat)
    (io : MachineIo) (h : FileMapping m l f i x)
    (ht : FirstTouches m l (m.proc.maps.arr l).start ks) :
    ∃ m', touchPages (m.proc.maps.arr l).start io ks m = .ok ((), m') ∧
      ((∀ k ∈ ks, RightPage m' (m.proc.maps.arr l).start x.bytes k) ↔
        ∀ j (hj : j < ks.length), ∀ b < 4096,
          x.bytes.getD ((m.fs.file f).off + 4096 * j + b) 0#8
            = x.bytes.getD (4096 * ks[j] + b) 0#8) := by
  obtain ⟨⟨⟩, m', hrun, -, -, hshows⟩ := (pages_show io h ht).returns
  refine ⟨m', hrun, ?_⟩
  have hbyte := fun j hj b hb => (hshows j hj).userByte ht.aligned (b := b) hb
  constructor
  · intro hright j hj b hb
    rw [← hbyte j hj b hb]
    exact hright _ (List.getElem_mem hj) b hb
  · intro hparts k hk b hb
    obtain ⟨j, hj, rfl⟩ := List.getElem_of_mem hk
    rw [hbyte j hj b hb]
    exact hparts j hj b hb

end Touches

/-! ## A file of two pages -/

/-- A page of ones and a page of twos. -/
def onesTwos : List Byte := List.replicate 4096 1#8 ++ List.replicate 4096 2#8

theorem getD_replicate_append (n j : Nat) (a b c : Byte) :
    (List.replicate n a ++ List.replicate n b).getD j c
      = if j < n then a else if j < 2 * n then b else c := by
  rw [List.getD_eq_getElem?_getD, List.getElem?_append, List.length_replicate,
    List.getElem?_replicate, List.getElem?_replicate]
  by_cases hlo : j < n
  · simp [hlo]
  · by_cases hhi : j < 2 * n
    · simp [hlo, hhi, show j - n < n by omega]
    · simp [hlo, hhi, show ¬ j - n < n by omega]

/-- A process that has mapped two pages of descriptor 3. -/
def mapsTwo : Proc :=
  { withFile0 with maps := (Xv6Mmap.sysWmap 1 Maps.init 0#32 8192#32 mapShared 3#32).2 }

/-- It has a file with ones and twos behind the descriptor, and has not read from it. -/
theorem exists_mapsTwo :
    ∃ m, m.proc = mapsTwo ∧ FileMapping m 0 Fs.file0 2 ⟨.file, 1, onesTwos⟩ ∧
      (m.fs.file Fs.file0).off = 0 ∧
      ∀ ks : List Nat, ks.Nodup → (∀ k ∈ ks, k < 2) →
        FirstTouches m 0 (m.proc.maps.arr 0).start ks := by
  have hsize : onesTwos.length ≤ Fs.maxfile * Fs.bsize := by
    unfold onesTwos
    rw [List.length_append, List.length_replicate, List.length_replicate]
    decide
  obtain ⟨s, hset, hopens, hfile⟩ := Fs.exists_file onesTwos hsize
  have hstart : (mapsTwo.maps.arr 0).start = 0x60000000#32 := by decide +kernel
  have hbacked : hasFlag (mapsTwo.maps.arr 0).flags mapAnonymous = false := by decide +kernel
  have hfd : fileAt mapsTwo (mapsTwo.maps.arr 0).fd = some Fs.file0 := by decide +kernel
  refine ⟨⟨Kmem.initial 5, mapsTwo, rewound s Fs.file0⟩, rfl,
    ⟨rewound_settled hset _, rewound_opens hopens, ?_, hbacked, hfd,
      Kmem.initial_sound (by decide), Kmem.initial_nodup (by decide)⟩, ?_, fun ks hnd hks => ?_⟩
  · rw [rewound_file, hfile]
  · rw [rewound_file]
  have hslots : ∀ k < 2, mapsTwo.maps.faultSlot (0x60000000#32 + BitVec.ofNat 32 (4096 * k))
      = some 0 := by decide +kernel
  rw [hstart]
  refine ⟨by decide, hnd, fun k hk => by have := hks k hk; omega, fun k hk => hslots k (hks k hk),
    fun k _ => present_zero, ?_⟩
  have hlen : ks.length ≤ 2 := by
    have hsub : ks ⊆ List.range 2 := fun k hk => List.mem_range.mpr (hks k hk)
    simpa using (hnd.subperm hsub).length_le
  change 2 * ks.length ≤ 5
  omega

theorem pages_right_iff_in_order :
    ∃ m m', m.proc = mapsTwo ∧ FileMapping m 0 Fs.file0 2 ⟨.file, 1, onesTwos⟩ ∧
      (m.fs.file Fs.file0).off = 0 ∧ touchPages 0x60000000#32 noIo [0, 1] m = .ok ((), m') ∧
      RightPage m' 0x60000000#32 onesTwos 0 ∧ RightPage m' 0x60000000#32 onesTwos 1 := by
  obtain ⟨m, hproc, hmap, hoff, htouch⟩ := exists_mapsTwo
  have hstart : (m.proc.maps.arr 0).start = 0x60000000#32 := by
    rw [hproc]
    decide +kernel
  obtain ⟨m', hrun, hiff⟩ := pages_right_iff m 0 2 Fs.file0 _ [0, 1] noIo hmap
    (htouch [0, 1] (by decide) (by decide))
  rw [hstart] at hrun hiff
  have hright := hiff.mpr fun j hj b hb => by
    rw [hoff]
    match j, hj with
    | 0, _ => rfl
    | 1, _ => rfl
  exact ⟨m, m', hproc, hmap, hoff, hrun, hright 0 (by decide), hright 1 (by decide)⟩

/-- **Touched first, the second page shows the first page of the file.** -/
theorem second_page_shows_first :
    ∃ m m', m.proc = mapsTwo ∧ FileMapping m 0 Fs.file0 2 ⟨.file, 1, onesTwos⟩ ∧
      (m.fs.file Fs.file0).off = 0 ∧ touchPages 0x60000000#32 noIo [1, 0] m = .ok ((), m') ∧
      userByte m'.kmem m'.proc.pgdir 0x60001000#32 = 1#8 ∧ onesTwos.getD 4096 0#8 = 2#8 ∧
      ¬ RightPage m' 0x60000000#32 onesTwos 1 := by
  obtain ⟨m, hproc, hmap, hoff, htouch⟩ := exists_mapsTwo
  have ht := htouch [1, 0] (by decide) (by decide)
  have hstart : (m.proc.maps.arr 0).start = 0x60000000#32 := by
    rw [hproc]
    decide +kernel
  rw [hstart] at ht
  obtain ⟨⟨⟩, m', hrun, -, -, hshows⟩ := (pages_show noIo hmap ht).returns
  have hbyte := (hshows 0 (by decide)).userByte ht.aligned (b := 0) (by decide)
  have hfirst : onesTwos.getD 0 0#8 = 1#8 := getD_replicate_append ..
  have hsecond : onesTwos.getD 4096 0#8 = 2#8 := getD_replicate_append ..
  rw [hoff] at hbyte
  have hone : userByte m'.kmem m'.proc.pgdir 0x60001000#32 = 1#8 := hbyte.trans hfirst
  refine ⟨m, m', hproc, hmap, hoff, hrun, hone, hsecond, fun hright => ?_⟩
  have htwo : userByte m'.kmem m'.proc.pgdir 0x60001000#32 = 2#8 :=
    (hright 0 (by decide)).trans hsecond
  exact absurd (hone.symm.trans htwo) (by decide)

end Xv6Mmap.Machine
