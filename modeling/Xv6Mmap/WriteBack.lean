import Xv6Mmap.MappedFiles

/-!
# Writing a mapping back to its file (`sysfile.c:737-762`, `file.c:115-156`)

Where every page of the mapping is loaded, the copy that `filewrite` makes from user memory meets no
fault, and it is the write of the file system on the bytes that are there (`filewriteLoop_onFs`).

* `wunmap_writes_back`: after `sys_wunmap` of such a mapping the file begins with its bytes, what was
  behind them is unchanged, and the offset is the length of the mapping.
-/

namespace Xv6Mmap.Machine

open Lib

variable {α β : Type} {look : Look} {m : Machine} {io : MachineIo}

/-! ## Functions of the file system -/

theorem onFs_bind (c : Fs.FsM α) (g : α → Fs.FsM β) :
    onFs (c >>= g) = onFs c >>= fun a => onFs (g a) := by
  funext m
  rw [stateT_bind]
  unfold onFs
  rw [stateT_bind]
  cases c m.fs <;> rfl

/-- Two computations that begin with the same function of the file system. -/
theorem onFs_bind_congr {c : Fs.FsM α} {p : MM α} {g g' : α → MM β} (hp : p m = onFs c m)
    (h : ∀ a s, g a { m with fs := s } = g' a { m with fs := s }) :
    (p >>= g) m = (onFs c >>= g') m := by
  rw [stateT_bind, stateT_bind, hp]
  unfold onFs
  cases c m.fs with
  | error e => rfl
  | ok r => exact h r.1 r.2

/-! ## Memory that is there -/

/-- The pages of the `n` bytes from `va` on are loaded. -/
def Loaded (d : PgDir) (va : Word) (n : Nat) : Prop :=
  ∀ j < n, present (d.entry (vpn (va + BitVec.ofNat 32 j))) = true

variable {va : Word} {n n' : Nat}

theorem Loaded.take {d : PgDir} (h : Loaded d va n) (hn : n' ≤ n) :
    Loaded d va n' :=
  fun j hj => h j (by omega)

theorem add_ofNat_add (va : Word) (i j : Nat) :
    va + BitVec.ofNat 32 i + BitVec.ofNat 32 j = va + BitVec.ofNat 32 (i + j) := by
  rw [BitVec.add_assoc, BitVec.ofNat_add]

theorem Loaded.drop {d : PgDir} (h : Loaded d va n) :
    Loaded d (va + BitVec.ofNat 32 n') (n - n') := fun j hj => by
  rw [add_ofNat_add]
  exact h _ (by omega)

theorem length_userBytes (k : Kmem) (d : PgDir) (va : Word) (n : Nat) :
    (userBytes k d va n).length = n := by
  simp [userBytes]

theorem userBytes_take (k : Kmem) (d : PgDir) (va : Word) (hn : n' ≤ n) :
    (userBytes k d va n).take n' = userBytes k d va n' := by
  unfold userBytes
  rw [← List.map_take, List.take_range, Nat.min_eq_left hn]

theorem userBytes_drop (k : Kmem) (d : PgDir) (va : Word) (n n' : Nat) :
    (userBytes k d va n).drop n' = userBytes k d (va + BitVec.ofNat 32 n') (n - n') := by
  unfold userBytes
  refine List.ext_getElem (by simp) fun j h1 h2 => ?_
  simp only [List.getElem_drop, List.getElem_map, List.getElem_range, add_ofNat_add]

theorem mem_touched {w : Word} (h : w ∈ touched va n) :
    ∃ j < n, w = va + BitVec.ofNat 32 j := by
  unfold touched at h
  split at h
  · exact absurd h List.not_mem_nil
  rcases List.mem_cons.mp h with rfl | h
  · exact ⟨0, by omega, by simp⟩
  · obtain ⟨j, hj, rfl⟩ := List.mem_map.mp h
    have hj := List.mem_range.mp hj
    refine ⟨4096 * (j + 1) - va.toNat % 4096, by omega, ?_⟩
    apply BitVec.eq_of_toNat_eq
    rw [BitVec.toNat_add, BitVec.toNat_add, pgRoundDown_toNat, BitVec.toNat_ofNat,
      BitVec.toNat_ofNat]
    omega

theorem touchAll_loaded :
    ∀ {vas : List Word}, (∀ w ∈ vas, present (m.proc.pgdir.entry (vpn w)) = true) →
      touchAll look io vas m = .ok ((), m)
  | [], _ => rfl
  | va :: vas, h => by
    have htouch : touchPage look io va m = .ok ((), m) := by
      change (if present (m.proc.pgdir.entry (vpn va)) = true then pure () else _ : MM Unit) m = _
      rw [if_pos (h va List.mem_cons_self)]
      rfl
    rw [touchAll, stateT_bind, htouch]
    exact touchAll_loaded fun w hw => h w (List.mem_cons_of_mem _ hw)

theorem writei_onFs {ip : Fin ninode} {off : Nat} (h : Loaded m.proc.pgdir va n) :
    writei look ip va off n io m = onFs (Fs.writei ip off (userBytes m.kmem m.proc.pgdir va n)) m := by
  have htouch : ∀ b : Bool, touchIf look b io (touched va n) m = .ok ((), m) := fun b => by
    unfold touchIf
    split
    · refine touchAll_loaded fun w hw => ?_
      obtain ⟨j, hj, rfl⟩ := mem_touched hw
      exact h j hj
    · rfl
  change (touchIf look _ io (touched va n) >>= fun _ => get >>= fun m =>
    onFs (Fs.writei ip off (userBytes m.kmem m.proc.pgdir va n))) m = _
  rw [stateT_bind, htouch]
  rfl

theorem filewriteLoop_onFs {f : Fin nfile} :
    ∀ {fuel : Nat} {va : Word} {n : Nat} {m : Machine}, Loaded m.proc.pgdir va n →
      filewriteLoop look f io fuel va n m
        = onFs (Fs.filewriteLoop f fuel (userBytes m.kmem m.proc.pgdir va n)) m
  | 0, _, _, _, _ => rfl
  | fuel + 1, va, n, m, h => by
    unfold filewriteLoop Fs.filewriteLoop
    by_cases hn : n = 0
    · subst hn
      rw [if_pos rfl, if_pos (show userBytes _ _ va 0 = [] from rfl)]
      rfl
    have hne : userBytes m.kmem m.proc.pgdir va n ≠ [] := by
      intro hnil
      have := length_userBytes m.kmem m.proc.pgdir va n
      rw [hnil] at this
      exact hn this.symm
    rw [if_neg hn, if_neg hne]
    dsimp only
    rw [length_userBytes, userBytes_take _ _ _ (Nat.min_le_left ..), userBytes_drop, onFs_bind]
    refine onFs_bind_congr rfl fun x s => ?_
    rw [onFs_bind]
    refine onFs_bind_congr rfl fun _ s1 => ?_
    rw [onFs_bind]
    refine onFs_bind_congr (writei_onFs (h.take (Nat.min_le_left ..))) fun r s2 => ?_
    rw [onFs_bind]
    refine onFs_bind_congr rfl fun _ s3 => ?_
    rw [onFs_bind]
    refine onFs_bind_congr rfl fun _ s4 => ?_
    by_cases hneg : r < 0
    · rw [if_pos hneg, if_pos hneg]
      rfl
    rw [if_neg hneg, if_neg hneg]
    by_cases hshort : r ≠ (min n Fs.maxWrite : Nat)
    · rw [if_pos hshort, if_pos hshort]
      rfl
    · rw [if_neg hshort, if_neg hshort]
      exact filewriteLoop_onFs h.drop

/-- **A write from memory that is there** is the write of its bytes. -/
theorem filewrite_onFs {f : Fin nfile} (h : Loaded m.proc.pgdir va n) :
    filewrite look f va n io m
      = onFs (Fs.filewrite f (userBytes m.kmem m.proc.pgdir va n) io.toDevIo) m := by
  unfold filewrite Fs.filewrite
  rw [onFs_bind]
  refine onFs_bind_congr rfl fun x s => ?_
  by_cases hw : (!x.writable) = true
  · rw [if_pos hw, if_pos hw]
    rfl
  rw [if_neg hw, if_neg hw]
  cases x.kind with
  | none => rfl
  | pipe =>
    dsimp only
    rw [stateT_bind, touchAll_loaded fun w hw => ?_]
    · rfl
    · obtain ⟨j, hj, rfl⟩ := mem_touched hw
      exact h j (by omega)
  | inode =>
    dsimp only
    rw [length_userBytes, onFs_bind]
    refine onFs_bind_congr (filewriteLoop_onFs h) fun b s1 => ?_
    cases b <;> rfl

/-! ## The write-back -/

section WriteBack

variable {b : MemBlock} {f : Fin nfile} {i : Nat} {x : Fs.Node}

/-- The bytes of the mapping. -/
def mappedBytes (m : Machine) (b : MemBlock) : List Byte :=
  userBytes m.kmem m.proc.pgdir b.start b.length.toNat

/-- What is needed for the write-back of a mapping of a regular file: neither private nor anonymous,
its descriptor open for writing, its pages loaded, and blocks for all of it. -/
structure WritesBack (m : Machine) (b : MemBlock) (f : Fin nfile) (i : Nat) (x : Fs.Node) : Prop where
  settled : Fs.Settled m.fs
  shared : hasFlag b.flags mapAnonymous = false ∧ hasFlag b.flags mapPrivate = false
  file : fileAt m.proc b.fd = some f
  opens : m.fs.Opens f i x
  writable : (m.fs.file f).writable = true
  length_le : b.length.toNat ≤ Fs.maxfile * Fs.bsize
  loaded : Loaded m.proc.pgdir b.start b.length.toNat
  enough : m.fs.enough i b.length.toNat

/-- The offset set back to zero. -/
def rewound (s : Fs.State) (f : Fin nfile) : Fs.State := s.withFile f { s.file f with off := 0 }

theorem rewound_file (s : Fs.State) (f : Fin nfile) :
    (rewound s f).file f = { s.file f with off := 0 } :=
  Fs.withFile_self ..

theorem rewound_settled {s : Fs.State} (hs : Fs.Settled s) (f : Fin nfile) :
    Fs.Settled (rewound s f) :=
  ⟨⟨hs.disk.own, hs.disk.covers, hs.disk.cached, hs.disk.unique⟩, hs.nonneg, hs.unlocked⟩

theorem rewound_opens {s : Fs.State} (ho : s.Opens f i x) : (rewound s f).Opens f i x := by
  have hu : Fs.Unmoved s (rewound s f) := ⟨rfl, rfl, fun _ => rfl, fun _ => rfl⟩
  exact ho.after hu rfl ho.node ho.type

theorem writeBack_spec (h : WritesBack m b f i x) (io : MachineIo) :
    Wp (writeBack byFd b io) m
      (fun _ m' => m'.kmem = m.kmem ∧ m'.proc = m.proc ∧
        Fs.FileWrote f i x (mappedBytes m b) (rewound m.fs f) m'.fs)
      fun _ => False := by
  have hw : ((rewound m.fs f).file f).writable = true := by
    rw [rewound_file]
    exact h.writable
  have hoff : ((rewound m.fs f).file f).off = 0 := by
    rw [rewound_file]
  have hlen : b.length.toInt.toNat = b.length.toNat := by
    have := h.length_le
    have hmax : Fs.maxfile * Fs.bsize = 71680 := by decide
    rw [BitVec.toInt_eq_toNat_cond]
    split <;> omega
  unfold writeBack
  rw [if_neg (by rw [h.shared.1, h.shared.2]; decide)]
  simp only [wp_bind, wp_get, wp_liftM, byFd, h.file]
  simp only [ends_ok, wp_onFs, Fs.wp_getFile, Fs.wp_setFile]
  rw [hlen]
  have hmapped := length_userBytes m.kmem m.proc.pgdir b.start b.length.toNat
  refine Wp.of_eq (filewrite_onFs (m := { m with fs := rewound m.fs f }) h.loaded) ?_
  rw [wp_onFs]
  refine (Fs.filewrite_spec (rewound_settled h.settled f) (rewound_opens h.opens) hw (by omega) ?_ ?_
    io.toDevIo).imp fun r s' hr => ?_
  · rw [hoff, hmapped, Nat.zero_add]
    exact h.length_le
  · rw [hoff, hmapped, Nat.zero_add]
    exact h.enough
  · exact ⟨rfl, rfl, hr.2⟩

/-- **A mapping is written back when it is unmapped**: the file begins with its bytes, what was behind
them is unchanged, and the offset is its length. -/
theorem wunmap_writes_back (m m' : Machine) (addr : Word) (io : MachineIo) (l i : Nat)
    (f : Fin nfile) (x : Fs.Node) (hl : m.proc.maps.findStart addr = some l)
    (h : WritesBack m (m.proc.maps.arr l) f i x)
    (hret : sysWunmap addr io m = .ok (success, m')) :
    (m'.fs.file f).off = (m.proc.maps.arr l).length.toNat ∧
      ∃ x', m'.fs.nodes = Function.update m.fs.nodes i (some x') ∧
        x'.bytes.take (m.proc.maps.arr l).length.toNat = mappedBytes m (m.proc.maps.arr l) ∧
        x'.bytes.drop (m.proc.maps.arr l).length.toNat
          = x.bytes.drop (m.proc.maps.arr l).length.toNat ∧
        x'.bytes.length = max x.bytes.length (m.proc.maps.arr l).length.toNat := by
  have hlen : (mappedBytes m (m.proc.maps.arr l)).length = (m.proc.maps.arr l).length.toNat :=
    length_userBytes ..
  have hspec : Wp (sysWunmap addr io) m (fun r m' => r = success →
      Fs.FileWrote f i x (mappedBytes m (m.proc.maps.arr l)) (rewound m.fs f) m'.fs) := by
    unfold sysWunmap sysWunmapVia
    split
    · exact fun hfail => absurd hfail (show failed ≠ success by decide)
    simp only [wp_bind, wp_get, hl]
    simp only [wp_liftM, wp_set, wp_pure]
    refine (writeBack_spec h io).mono (fun _ m₁ hw => ?_) fun _ h => h.elim
    exact ends_of_ok fun r _ _ => hw.2.2
  have hw := hspec.ok hret rfl
  have hoff : ((rewound m.fs f).file f).off = 0 := by
    rw [rewound_file]
  have hbytes : Fs.splice x.bytes (mappedBytes m (m.proc.maps.arr l)) 0
      = mappedBytes m (m.proc.maps.arr l) ++ x.bytes.drop (m.proc.maps.arr l).length.toNat := by
    rw [Fs.splice, hlen, Nat.zero_add]
    rfl
  have hnodes := hw.nodes
  rw [hoff, hbytes] at hnodes
  refine ⟨?_, _, hnodes, ?_, ?_, ?_⟩
  · rw [hw.off_eq, hoff, hlen, Nat.zero_add]
  · exact List.take_left' hlen
  · exact List.drop_left' hlen
  · rw [List.length_append, List.length_drop, hlen]
    omega

/-- A process whose descriptor 3 is the first file. -/
def withFile0 : Proc :=
  { Proc.fresh 1 with ofile := fun fd => if fd = 3 then some 0 else none }

/-- Five bytes of the file, mapped and loaded. -/
def loadFive : List Call :=
  [.wmap 0#32 5#32 mapShared 3#32, .fault 0x60000000#32 noFile]

def noIo : MachineIo := ⟨default, 0⟩

theorem exists_of_toOption {p : MM Word} {r : Word} (h : (p m).toOption.map Prod.fst = some r) :
    ∃ m', p m = .ok (r, m') := by
  rcases hp : p m with _ | v <;> rw [hp] at h
  · cases h
  cases h
  exact ⟨v.2, rfl⟩

theorem wunmap_writes_back_five :
    ∃ s m', run callStep (Kmem.initial 3, withFile0) loadFive = .ok s ∧
      sysWunmap 0x60000000#32 noIo ⟨s.1, s.2, Fs.State.oneFile⟩ = .ok (success, m') ∧
      (m'.fs.file Fs.file0).off = 5 := by
  obtain ⟨s, hr, hq⟩ := run_ok_of_eval callStep (Kmem.initial 3, withFile0) loadFive
    (fun s => decide (s.2.maps.findStart 0x60000000#32 = some 0 ∧
        s.2.maps.arr 0 = ⟨0x60000000#32, 0x60000FFF#32, mapShared, 5#32, 3#32, 1#32, 1#32, (1, 0)⟩) &&
      decide (fileAt s.2 3#32 = some Fs.file0) &&
      ((List.range 5).all fun j =>
        present (s.2.pgdir.entry (vpn (0x60000000#32 + BitVec.ofNat 32 j)))) &&
      decide ((sysWunmap 0x60000000#32 noIo ⟨s.1, s.2, Fs.State.oneFile⟩).toOption.map Prod.fst
        = some success))
    (by decide +kernel)
  simp only [Bool.and_eq_true, decide_eq_true_eq, List.all_eq_true, List.mem_range] at hq
  obtain ⟨⟨⟨⟨hl, harr⟩, hfile⟩, hloaded⟩, hret⟩ := hq
  obtain ⟨m', hret⟩ := exists_of_toOption (p := sysWunmap 0x60000000#32 noIo) hret
  have hlen : (s.2.maps.arr 0).length.toNat = 5 := by
    rw [harr]
    rfl
  have hw : WritesBack ⟨s.1, s.2, Fs.State.oneFile⟩ (s.2.maps.arr 0) Fs.file0 2 ⟨.file, 1, []⟩ := by
    refine ⟨Fs.oneFile_settled, ?_, ?_, Fs.oneFile_opens, rfl, ?_, ?_, ?_⟩
    · rw [harr]
      decide
    · rw [harr]
      exact hfile
    · rw [hlen]
      decide
    · rw [hlen]
      intro j hj
      rw [harr]
      exact hloaded j hj
    · rw [hlen]
      exact Fs.oneFile_enough (by decide)
  refine ⟨s, m', hr, hret, ?_⟩
  rw [(wunmap_writes_back _ m' 0x60000000#32 noIo 0 2 Fs.file0 _ hl hw hret).1, hlen]

end WriteBack

end Xv6Mmap.Machine
