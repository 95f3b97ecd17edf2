import Xv6Mmap.Directory

/-!
# Path resolution is component-wise lookup (`fs.c:583-670`)

`skipelem` cuts one element off a path and `namex` goes one directory further for each. Here the path
is first cut into its `components`, the non-empty parts between slashes, each cut to `DIRSIZ` bytes,
and a path is resolved by folding `child`, the lookup in one directory, over them.

* `components_skipelem`: `skipelem` takes the first component off.
* `walk_eq_fold`: the walk of `namex` is the fold; for `nameiparent` over all components but the
  last.
* `namexLoop_rest`: on a disk where the nodes without links that can be found are referred to,
  `namex` frees nothing, and returns what the walk finds.
* `namei_is_fold`: so `namei` and `nameiparent` return the result of the fold, from the root or from
  the current directory, on every tree. They can only fail for want of a slot of the inode cache,
  and two free ones are enough.
-/

namespace Xv6Mmap.Fs

open Lib

/-! ## Components -/

/-- The parts of a path between slashes that are not empty. -/
def parts (path : List Byte) : List (List Byte) := (path.splitOn slash).filter (· ≠ [])

/-- The components of a path. -/
def components (path : List Byte) : List (List Byte) := (parts path).map (List.take dirsiz)

section Components

variable {path : List Byte}

theorem parts_slash (path : List Byte) : parts (slash :: path) = parts path := by
  unfold parts List.splitOn
  rw [List.splitOnP_cons_eq_if_modifyHead, if_pos (beq_self_eq_true slash)]
  rfl

theorem parts_dropWhile (path : List Byte) : parts (path.dropWhile (· = slash)) = parts path := by
  induction path with
  | nil => rfl
  | cons c path ih =>
    by_cases hc : c = slash
    · rw [List.dropWhile_cons_of_pos (by simpa using hc), ih, hc, parts_slash]
    · rw [List.dropWhile_cons_of_neg (by simpa using hc)]

/-- The first part of a path that does not begin with a slash. -/
theorem parts_takeWhile (hne : path ≠ []) (hhead : path.head? ≠ some slash) :
    parts path = path.takeWhile (· ≠ slash) :: parts (path.dropWhile (· ≠ slash)) := by
  obtain ⟨c, rest, rfl⟩ := List.exists_cons_of_ne_nil hne
  have hc : c ≠ slash := fun h => hhead (by rw [h]; rfl)
  have hpart : (c :: rest).takeWhile (· ≠ slash) ≠ [] := by
    rw [List.takeWhile_cons_of_pos (by simpa using hc)]
    exact List.cons_ne_nil _ _
  generalize hw : (c :: rest).takeWhile (· ≠ slash) = w at hpart
  generalize hr : (c :: rest).dropWhile (· ≠ slash) = r
  have hsplit : c :: rest = w ++ r := by rw [← hw, ← hr, List.takeWhile_append_dropWhile]
  have hnone : ∀ x ∈ w, (x == slash) = false := fun x hx => by
    rw [← hw] at hx
    simpa using List.all_eq_true.mp List.all_takeWhile x hx
  rw [hsplit]
  cases r with
  | nil =>
    unfold parts List.splitOn
    rw [List.append_nil, List.splitOnP_eq_singleton hnone,
      List.filter_cons_of_pos (by simpa using hpart)]
    rfl
  | cons d r =>
    have hd : d = slash := by
      have := List.head?_dropWhile_not (fun x : Byte => decide (x ≠ slash)) (c :: rest)
      rw [hr] at this
      simpa using this
    subst hd
    rw [parts_slash]
    unfold parts List.splitOn
    rw [List.splitOnP_append_cons_of_forall_mem hnone slash (beq_self_eq_true slash),
      List.filter_cons_of_pos (by simpa using hpart)]

theorem head?_dropWhile_slash (path : List Byte) :
    (path.dropWhile (· = slash)).head? ≠ some slash := by
  have := List.head?_dropWhile_not (fun x : Byte => decide (x = slash)) path
  intro h
  rw [h] at this
  simp at this

/-- A path that does not begin with a slash has no component only if it is empty. -/
theorem components_eq_nil (hhead : path.head? ≠ some slash) : components path = [] ↔ path = [] := by
  refine ⟨fun h => ?_, fun h => by rw [h]; rfl⟩
  by_contra hne
  unfold components at h
  rw [parts_takeWhile hne hhead] at h
  cases h

/-- **`skipelem` takes the first component off.** What is left is shorter, and is empty if there is
no other. -/
theorem components_skipelem (path : List Byte) :
    match skipelem path with
    | none => components path = []
    | some (name, rest) => components path = name :: components rest ∧ rest.length < path.length ∧
      (rest = [] ↔ components rest = []) := by
  have hhead := head?_dropWhile_slash path
  have hlen : (path.dropWhile (· = slash)).length ≤ path.length :=
    (List.dropWhile_suffix _).length_le
  unfold skipelem components
  rw [← parts_dropWhile path]
  generalize path.dropWhile (· = slash) = t at hhead hlen
  cases t with
  | nil => rfl
  | cons c t =>
    have hc : c ≠ slash := fun h => hhead (by rw [h]; rfl)
    refine ⟨?_, ?_, (components_eq_nil (head?_dropWhile_slash _)).symm⟩
    · rw [parts_takeWhile (List.cons_ne_nil c t) hhead, List.map_cons, parts_dropWhile]
    · rw [List.dropWhile_cons_of_pos (by simpa using hc)]
      have h1 : ((t.dropWhile (· ≠ slash)).dropWhile (· = slash)).length
          ≤ (t.dropWhile (· ≠ slash)).length := (List.dropWhile_suffix _).length_le
      have h2 : (t.dropWhile (· ≠ slash)).length ≤ t.length := (List.dropWhile_suffix _).length_le
      rw [List.length_cons] at hlen
      omega

end Components

/-! ## The fold -/

/-- The inode that `name` is bound to in directory `i`. -/
def child (N : Nodes) (i : Nat) (name : List Byte) : Option Nat :=
  match N i with
  | none => none
  | some m => if m.type = .dir then dirMap m.bytes (cname name) else none

/-- Node `i` is a directory. -/
def isDir (N : Nodes) (i : Nat) : Bool :=
  match N i with
  | none => false
  | some m => decide (m.type = .dir)

/-- Follow the components from node `i` on. -/
def follow (N : Nodes) (i : Nat) (names : List (List Byte)) : Option Nat := names.foldlM (child N) i

/-- Follow all components but the last, to the directory in which the last is to be looked up. -/
def followParent (N : Nodes) (i : Nat) (names : List (List Byte)) : Option (Nat × List Byte) :=
  match names.getLast? with
  | none => none
  | some last => (follow N i names.dropLast).bind fun d =>
    if isDir N d then some (d, last) else none

section Fold

variable {N : Nodes} {i : Nat} {m : Node} {name : List Byte} {names : List (List Byte)}

theorem follow_cons :
    follow N i (name :: names) = (child N i name).bind fun j => follow N j names :=
  List.foldlM_cons

theorem followParent_cons (hne : names ≠ []) :
    followParent N i (name :: names) = (child N i name).bind fun j => followParent N j names := by
  unfold followParent
  rw [List.getLast?_cons_of_ne_nil hne, List.dropLast_cons_of_ne_nil hne, follow_cons,
    List.getLast?_eq_some_getLast hne]
  exact Option.bind_assoc ..

theorem followParent_singleton :
    followParent N i [name] = if isDir N i then some (i, name) else none := rfl

theorem child_dir (hm : N i = some m) (ht : m.type = .dir) (name : List Byte) :
    child N i name = (lookup m.bytes name).map fun k => deInum (entry m.bytes k) := by
  rw [child, hm]
  simp only [ht, if_true, dirMap_cname]

theorem isDir_iff : isDir N i = true ↔ ∃ m, N i = some m ∧ m.type = .dir := by
  unfold isDir
  cases N i with
  | none => simp
  | some m => simp

theorem child_of_not_dir (h : isDir N i = false) (name : List Byte) : child N i name = none := by
  unfold child
  cases hm : N i with
  | none => rfl
  | some m =>
    refine if_neg fun ht => ?_
    rw [isDir_iff.mpr ⟨m, hm, ht⟩] at h
    cases h

theorem walk_succ {parent : Bool} {fuel : Nat} {path rest : List Byte}
    (hs : skipelem path = some (name, rest)) :
    walk N parent (fuel + 1) i path =
      if isDir N i then
        if parent ∧ rest = [] then some (i, name)
        else (child N i name).bind fun j => walk N parent fuel j rest
      else none := by
  rw [walk]
  by_cases hdir : isDir N i = true
  · obtain ⟨m, hm, ht⟩ := isDir_iff.mp hdir
    simp only [hs, hm, hdir, child_dir hm ht, ht, ne_eq, not_true_eq_false, if_false, if_true]
    cases lookup m.bytes name <;> rfl
  · rw [if_neg hdir]
    cases hm : N i with
    | none => simp only [hs]
    | some m =>
      have ht : m.type ≠ .dir := fun ht => hdir (isDir_iff.mpr ⟨m, hm, ht⟩)
      simp only [hs, ht, ne_eq, not_false_eq_true, if_true]

/-- **The walk of `namex` is a fold** over the components of the path. -/
theorem walk_eq_fold (N : Nodes) (parent : Bool) {fuel : Nat} (i : Nat) {path : List Byte}
    (hfuel : path.length < fuel) :
    walk N parent fuel i path =
      if parent then followParent N i (components path)
      else (follow N i (components path)).map fun j => (j, []) := by
  induction fuel generalizing i path with
  | zero => omega
  | succ fuel ih =>
    have hskip := components_skipelem path
    cases hs : skipelem path with
    | none =>
      simp only [hs] at hskip
      rw [walk, hskip]
      simp only [hs]
      rfl
    | some e =>
      obtain ⟨name, rest⟩ := e
      simp only [hs] at hskip
      obtain ⟨hcomp, hlen, hlast⟩ := hskip
      have hih : ∀ j, walk N parent fuel j rest = _ := fun j => ih j (by omega)
      rw [walk_succ hs, hcomp, follow_cons]
      simp only [hih]
      by_cases hdir : isDir N i = true
      · rw [if_pos hdir]
        cases parent with
        | false =>
          rw [if_neg (by simp)]
          cases child N i name <;> rfl
        | true =>
          by_cases hend : rest = []
          · rw [if_pos ⟨rfl, hend⟩, hlast.mp hend, followParent_singleton, hdir]
            rfl
          · rw [if_neg fun h => hend h.2, followParent_cons fun h => hend (hlast.mpr h)]
            rfl
      · have hdir : isDir N i = false := by simpa using hdir
        rw [hdir, child_of_not_dir hdir]
        cases parent with
        | false => rfl
        | true =>
          by_cases hend : components rest = []
          · rw [hend, followParent_singleton, hdir]
            rfl
          · rw [followParent_cons hend, child_of_not_dir hdir]
            rfl

end Fold

/-! ## `namex` -/

/-- Two slots of the cache are free. -/
def TwoFree (G : Fin ninode → Int) : Prop := ∃ b c, b ≠ c ∧ G b = 0 ∧ G c = 0

/-- The entries fill their directories, and every entry that is in use is for a node. -/
def Tree (N : Nodes) : Prop :=
  ∀ i m, N i = some m → m.type = .dir → m.bytes.length = deSize * entries m.bytes ∧
    ∀ k < entries m.bytes, deInum (entry m.bytes k) ≠ 0 → N (deInum (entry m.bytes k)) ≠ none

/-- What `namex` returns, with the reference counts `G` besides that of the result, where the walk
finds `w`. The result has links, or another reference. -/
def Walks (G : Fin ninode → Int) (s : State) (w : Option (Nat × List Byte))
    (r : Option (Fin ninode × List Byte)) (s' : State) : Prop :=
  Quiet G s s' ∧
    match r with
    | none => w = none ∧ Rest G [] s'
    | some (b, name) => w = some ((s'.inode b).inum, name) ∧ Rest (G + one b) [] s' ∧
      s'.Spared G (s'.inode b).inum

section Namex

variable {G : Fin ninode → Int} {s s₁ : State} {a : Fin ninode}

theorem Walks.quiet {w : Option (Nat × List Byte)} {r : Option (Fin ninode × List Byte)} {s' : State}
    (hq : Quiet G s s₁) (h : Walks G s₁ w r s') : Walks G s w r s' := ⟨hq.trans h.1, h.2⟩

/-- One of two free slots is left when one is taken. -/
theorem TwoFree.cacheable {L : List (Fin ninode)} (h : Rest G L s) (hfree : TwoFree (G - one a))
    (i : Nat) : s.Cacheable i := by
  obtain ⟨b, c, hbc, hb, hc⟩ := hfree
  by_cases hba : b = a
  · have hca : c ≠ a := fun hca => hbc (hba.trans hca.symm)
    rw [sub_one_of_ne hca] at hc
    exact .inr ⟨c, by rw [h.held.ref c, hc]⟩
  · rw [sub_one_of_ne hba] at hb
    exact .inr ⟨b, by rw [h.held.ref b, hb]⟩

theorem namexLoop_fails {E : Halt → Prop} (h : Rest G [a] s)
    (ho : s.Spared (G - one a) (s.inode a).inum) :
    Wp (do iunlockput a; return none) s (Walks (G - one a) s none) E := by
  refine (iunlockput_rest h List.not_mem_nil ho).bind ?_ fun _ he => he.elim
  rintro - s₁ ⟨h1, hq1⟩
  exact ⟨hq1.all, rfl, h1⟩

/-- **The loop of `namex`** returns what the walk finds and frees nothing. Its errors: an inode on the
way that is free, an entry that is cut off, or no slot for the next inode. -/
theorem namexLoop_rest (h : Rest G [] s) (hpos : 0 < G a) (ho : s.NoOrphan (G - one a))
    (ha : s.Spared (G - one a) (s.inode a).inum) (parent : Bool) (fuel : Nat) (path : List Byte) :
    Wp (namexLoop parent fuel a path) s
      (Walks (G - one a) s (walk s.nodes parent fuel (s.inode a).inum path))
      fun _ => path.length < fuel → s.nodes (s.inode a).inum ≠ none → Tree s.nodes →
        ¬ TwoFree (G - one a) := by
  induction fuel generalizing s G a path with
  | zero => exact fun hlen => absurd hlen (Nat.not_lt_zero _)
  | succ fuel ih =>
    rw [namexLoop]
    cases hs : skipelem path with
    | none =>
      have hwalk : walk s.nodes parent (fuel + 1) (s.inode a).inum path
          = if parent then none else some ((s.inode a).inum, []) := by
        rw [walk]
        simp only [hs]
      simp only [hwalk]
      split
      case isTrue =>
        refine (iput_rest h List.not_mem_nil hpos (h.other hpos ha)).bind ?_ fun _ he => he.elim
        rintro - s₁ ⟨h1, hq1⟩
        exact ⟨hq1.all, rfl, h1⟩
      case isFalse => exact ⟨.refl _ s, rfl, by rwa [sub_add_cancel], ha⟩
    | some e =>
      obtain ⟨name, rest⟩ := e
      have hshort : rest.length < path.length := by
        have hskip := components_skipelem path
        simp only [hs] at hskip
        exact hskip.2.1
      rw [walk_succ hs]
      simp only [wp_bind]
      refine (ilock_rest h List.not_mem_nil hpos).mono ?_ fun _ hnone _ hn => absurd hnone hn
      rintro - s₁ ⟨h1, hq1⟩
      have hinum : (s₁.inode a).inum = (s.inode a).inum := hq1.inum a Int.one_pos
      have ha1 := ha.slot hq1 (fun _ _ => Int.one_pos) Int.one_pos
      obtain ⟨m, hm1, hmt, -⟩ := h1.held.node List.mem_cons_self h1.disk
      have hm : s.nodes (s.inode a).inum = some m := by rw [← hinum, ← hq1.nodes, hm1]
      have hisDir : isDir s.nodes (s.inode a).inum = true ↔ m.type = .dir := by
        rw [isDir_iff, hm]
        simp
      simp only [wp_getInode, hmt]
      split
      case isTrue ht =>
        rw [if_neg fun hdir => ht (congrArg some (hisDir.mp hdir))]
        exact (namexLoop_fails h1 ha1).imp fun _ _ hr => hr.quiet hq1.all
      case isFalse ht =>
        have ht : m.type = .dir := Option.some.inj (not_not.mp ht)
        rw [if_pos (hisDir.mpr ht)]
        split
        case isTrue hend =>
          refine (iunlock_rest h1 List.not_mem_nil).bind ?_ fun _ he => he.elim
          rintro - s2 ⟨h2, hq2⟩
          have hq := hq1.trans hq2
          rw [← hq.inum a Int.one_pos]
          exact ⟨hq.all, rfl, by rwa [sub_add_cancel],
            ha.slot hq (fun _ _ => Int.one_pos) Int.one_pos⟩
        case isFalse hend =>
          rw [child_dir hm ht, wp_bind]
          refine (dirlookup_rest h1 List.mem_cons_self hm1 ht name).mono ?_ ?_
          · rintro (_ | ⟨next, off⟩) s2 ⟨hq2, hr⟩
            · obtain ⟨hnone, -, rfl⟩ := hr
              rw [hnone]
              exact (namexLoop_fails h1 ha1).imp fun _ _ hr => hr.quiet hq1.all
            · obtain ⟨h2, -, k, hk, -, hnext⟩ := hr
              have hG : G + one next - one a - one next = G - one a := by
                rw [add_sub_right_comm, add_sub_cancel_right]
              have hfloor : ∀ b, 0 < (G - one a) b → 0 < (G + one next - one a) b := by
                intro b hb
                rw [← hG] at hb
                exact pos_of_sub hb
              have hnextpos : 0 < (G + one next - one a) next := by
                have hle : one a next ≤ G next := one_le_of_pos h.held.nonneg hpos next
                rw [Pi.sub_apply, Pi.add_apply, one_self]
                omega
              have hq12 : Quiet (G - one a) s s2 :=
                hq1.all.trans (hq2.mono fun b hb => pos_of_sub hb)
              have ha2 := ha1.slot hq2 (fun b hb => pos_of_sub hb) hpos
              refine (iunlockput_rest h2 List.not_mem_nil (ha2.mono hfloor)).bind ?_
                fun _ he => he.elim
              rintro - s3 ⟨h3, hq3⟩
              have hq : Quiet (G - one a) s s3 := hq12.trans hq3.all
              have hdeInum : (s3.inode next).inum = deInum (entry m.bytes k) :=
                (hq3.inum next Int.one_pos).trans hnext
              have hspared := (ho _ (exposed_of_lookup hm ht hk)).quiet hq
              have hloop := ih h3 hnextpos (by rw [hG]; exact ho.quiet hq)
                (by rw [hG, hdeInum]; exact hspared) rest
              rw [hG, hq.nodes, hdeInum] at hloop
              rw [hk]
              refine hloop.mono (fun _ _ hr => hr.quiet hq) fun _ he hlen _ htree => ?_
              obtain ⟨hlt, hused⟩ := lookup_ne_zero hk
              exact he (by omega) ((htree _ m hm ht).2 k hlt hused) htree
          · rintro - hnot _ hn htree hfree
            rcases hnot with hlen | ⟨k, -, hnot⟩
            · exact hlen (htree _ m hm ht).1
            · exact hnot (hfree.cacheable h1 _)

theorem cacheable_of_zero {L : List (Fin ninode)} (h : Rest G L s) (h0 : G a = 0) (i : Nat) :
    s.Cacheable i := .inr ⟨a, by rw [h.held.ref a, h0]⟩

theorem namexStart_rest (h : Rest G [] s) {p : Fin nproc}
    (hcwd : ∀ c, (s.proc p).cwd = some c → 0 < G c) (ho : s.NoOrphan G) (path : List Byte) :
    Wp (namexStart p path) s
      (fun b s' => Rest (G + one b) [] s' ∧ Quiet G s s' ∧
        s.start p path = some (s'.inode b).inum ∧ s'.Spared G (s'.inode b).inum)
      fun _ => s.start p path ≠ none → ¬ TwoFree G := by
  unfold namexStart State.start
  split
  case isTrue =>
    refine (iget_rest h rootino).mono ?_ ?_
    · rintro b s' ⟨h', hq, hinum, -⟩
      rw [hinum]
      exact ⟨h', hq, rfl, (ho rootino (.inl rfl)).quiet hq⟩
    · rintro - hnot - ⟨b, -, -, hb, -⟩
      exact hnot (cacheable_of_zero h hb _)
  case isFalse =>
    rw [wp_bind, wp_get]
    cases hc : (s.proc p).cwd with
    | none => exact fun hne => absurd rfl hne
    | some c =>
      refine (idup_rest h (hcwd c hc)).mono ?_ fun _ he => he.elim
      rintro b s' ⟨rfl, h', hq⟩
      refine ⟨h', hq, ?_, .of_pos (hcwd b hc)⟩
      rw [hq.inum b (hcwd b hc)]
      rfl

/-- **`namex(path, nameiparent, name)`** returns what the path names. -/
theorem namex_rest (h : Rest G [] s) {p : Fin nproc}
    (hcwd : ∀ c, (s.proc p).cwd = some c → 0 < G c) (ho : s.NoOrphan G) (parent : Bool)
    (path : List Byte) :
    Wp (namex p parent path) s (Walks G s (s.resolve p parent path))
      fun _ => ∀ i, s.start p path = some i → s.nodes i ≠ none → Tree s.nodes → ¬ TwoFree G := by
  unfold namex
  refine (namexStart_rest h hcwd ho path).bind ?_ fun _ he i hi _ _ => he (by rw [hi]; nofun)
  rintro a s₁ ⟨h1, hq1, hstart, ha1⟩
  have hloop := namexLoop_rest h1 (pos_add_one h.held.nonneg a)
    (by rw [add_sub_cancel_right]; exact ho.quiet hq1)
    (by rwa [add_sub_cancel_right]) parent (path.length + 1) path
  rw [add_sub_cancel_right, hq1.nodes] at hloop
  rw [State.resolve, hstart]
  refine hloop.mono (fun _ _ hr => hr.quiet hq1) fun _ he i hi hused htree => ?_
  cases hi
  exact he (Nat.lt_succ_self _) hused htree

theorem namei_rest (h : Rest G [] s) {p : Fin nproc}
    (hcwd : ∀ c, (s.proc p).cwd = some c → 0 < G c) (ho : s.NoOrphan G) (path : List Byte) :
    Wp (namei p path) s
      (fun r s' => Walks G s (s.resolve p false path) (r.map fun b => (b, [])) s')
      fun _ => ∀ i, s.start p path = some i → s.nodes i ≠ none → Tree s.nodes → ¬ TwoFree G := by
  unfold namei
  refine (namex_rest h hcwd ho false path).next ?_
  rintro (_ | ⟨b, name⟩) s₁ ⟨hq, hw, h1⟩
  · exact ⟨hq, hw, h1⟩
  · refine ⟨hq, ?_, h1⟩
    -- the walk to the last node has no name
    obtain ⟨i, -, hwalk⟩ := Option.bind_eq_some_iff.mp hw
    rw [walk_eq_fold _ _ _ (Nat.lt_succ_self _)] at hwalk
    obtain ⟨j, -, hj⟩ := Option.map_eq_some_iff.mp hwalk
    cases hj
    exact hw

end Namex

/-! ## Resolving a path in a tree -/

/-- Between two operations, with a tree that looking does not change: entries are for nodes, and
nodes without links that can be found are referred to. Process `p` is in directory `c`. -/
structure InTree (s : State) (p : Fin nproc) (c : Fin ninode) : Prop where
  settled : Settled s
  cwd : (s.proc p).cwd = some c
  ref : 0 < (s.inode c).ref
  current : s.nodes (s.inode c).inum ≠ none
  root : s.nodes rootino ≠ none
  tree : Tree s.nodes
  links : s.NoOrphan fun b => (s.inode b).ref

/-- The node at which a path begins. -/
def State.origin (s : State) (c : Fin ninode) (path : List Byte) : Nat :=
  if path.head? = some slash then rootino else (s.inode c).inum

section InTree

variable {s : State} {p : Fin nproc} {c : Fin ninode}

theorem InTree.start_eq (h : InTree s p c) (path : List Byte) :
    s.start p path = some (s.origin c path) := by
  unfold State.start State.origin
  rw [h.cwd]
  split <;> rfl

theorem InTree.origin_used (h : InTree s p c) (path : List Byte) :
    s.nodes (s.origin c path) ≠ none := by
  unfold State.origin
  split
  · exact h.root
  · exact h.current

theorem InTree.cwd_ref (h : InTree s p c) (d : Fin ninode) (hd : (s.proc p).cwd = some d) :
    0 < (s.inode d).ref := by
  rw [h.cwd] at hd
  cases hd
  exact h.ref

theorem InTree.resolve_eq (h : InTree s p c) (parent : Bool) (path : List Byte) :
    s.resolve p parent path =
      if parent then followParent s.nodes (s.origin c path) (components path)
      else (follow s.nodes (s.origin c path) (components path)).map fun j => (j, []) := by
  rw [State.resolve, h.start_eq]
  exact walk_eq_fold _ _ _ (Nat.lt_succ_self _)

theorem InTree.namei_spec (h : InTree s p c) (path : List Byte) :
    Wp (namei p path) s
      (fun r s' => r.map (fun b => (s'.inode b).inum)
          = follow s.nodes (s.origin c path) (components path) ∧
        Settled s' ∧ Quiet (fun b => (s.inode b).ref) s s')
      fun _ => ¬ TwoFree fun b => (s.inode b).ref := by
  refine (namei_rest h.settled.rest h.cwd_ref h.links path).mono ?_ fun _ he =>
    he _ (h.start_eq path) (h.origin_used path) h.tree
  rintro r s' ⟨hq, hr⟩
  rw [h.resolve_eq] at hr
  cases r with
  | none => exact ⟨(Option.map_eq_none_iff.mp hr.1).symm, hr.2.settled, hq⟩
  | some b =>
    obtain ⟨j, hj, hbj⟩ := Option.map_eq_some_iff.mp hr.1
    cases hbj
    exact ⟨hj.symm, hr.2.1.settled, hq⟩

theorem InTree.nameiparent_spec (h : InTree s p c) (path : List Byte) :
    Wp (nameiparent p path) s
      (fun r s' => r.map (fun x => ((s'.inode x.1).inum, x.2))
          = followParent s.nodes (s.origin c path) (components path) ∧
        Settled s' ∧ Quiet (fun b => (s.inode b).ref) s s')
      fun _ => ¬ TwoFree fun b => (s.inode b).ref := by
  refine (namex_rest h.settled.rest h.cwd_ref h.links true path).mono ?_ fun _ he =>
    he _ (h.start_eq path) (h.origin_used path) h.tree
  rintro r s' ⟨hq, hr⟩
  rw [h.resolve_eq] at hr
  cases r with
  | none => exact ⟨hr.1.symm, hr.2.settled, hq⟩
  | some x => exact ⟨hr.1.symm, hr.2.1.settled, hq⟩

/-- **Path resolution is component-wise lookup**: in every tree, for every path, `namei` returns the
inode that folding the lookup over the components of the path leads to, from the root or from the
current directory, and `nameiparent` returns where all components but the last lead to, which is a
directory, and the last; they return nothing where there is no such node. On the way only the inode
cache changes. They always return if two slots of the cache are free. -/
theorem namei_is_fold (s : State) (p : Fin nproc) (c : Fin ninode) (path : List Byte)
    (h : InTree s p c) :
    (∀ r s', namei p path s = .ok (r, s') →
      r.map (fun b => (s'.inode b).inum) = follow s.nodes (s.origin c path) (components path) ∧
        Settled s' ∧ Quiet (fun b => (s.inode b).ref) s s') ∧
    (∀ r s', nameiparent p path s = .ok (r, s') →
      r.map (fun x => ((s'.inode x.1).inum, x.2))
          = followParent s.nodes (s.origin c path) (components path) ∧
        Settled s' ∧ Quiet (fun b => (s.inode b).ref) s s') ∧
    ((TwoFree fun b => (s.inode b).ref) →
      (∃ r s', namei p path s = .ok (r, s')) ∧ ∃ r s', nameiparent p path s = .ok (r, s')) := by
  refine ⟨fun r s' hr => (h.namei_spec path).ok hr, fun r s' hr => (h.nameiparent_spec path).ok hr,
    fun hfree => ⟨?_, ?_⟩⟩
  · obtain ⟨r, s', hr, -⟩ :=
      ((h.namei_spec path).mono (fun _ _ hr => hr) fun _ he => he hfree).returns
    exact ⟨r, s', hr⟩
  · obtain ⟨r, s', hr, -⟩ :=
      ((h.nameiparent_spec path).mono (fun _ _ hr => hr) fun _ he => he hfree).returns
    exact ⟨r, s', hr⟩

end InTree

/-- The root directory of an empty disk. -/
def rootNode : Node := ⟨.dir, 1, bytes emptyDinode emptyVol.data rootino 0 bsize⟩

theorem emptyBoot_root : emptyBoot.nodes rootino = some rootNode := nodes_eq_some rfl

theorem emptyBoot_nodes {i : Nat} {m : Node} (h : emptyBoot.nodes i = some m) : m = rootNode := by
  by_cases hi : i = rootino
  · rw [hi, emptyBoot_root] at h
    exact (Option.some.inj h).symm
  · have hnone : emptyBoot.nodes i = none := by
      simp [State.nodes, nodeOf, emptyBoot, State.boot, emptyDinode_of_ne hi, Dinode.zero]
    rw [hnone] at h
    cases h

theorem emptyBoot_inTree : InTree emptyBoot initproc 0 where
  settled := emptyBoot_settled
  cwd := rfl
  ref := by decide
  current := by
    rw [show (emptyBoot.inode 0).inum = rootino from rfl, emptyBoot_root]
    nofun
  root := by
    rw [emptyBoot_root]
    nofun
  tree i m hm _ := by
    rw [emptyBoot_nodes hm]
    have hself : ∀ k < entries rootNode.bytes, deInum (entry rootNode.bytes k) ≠ 0 →
        deInum (entry rootNode.bytes k) = rootino := by decide +kernel
    refine ⟨by decide +kernel, fun k hk hne => ?_⟩
    rw [hself k hk hne, emptyBoot_root]
    nofun
  links i _ n hn h0 := by
    rw [emptyBoot_nodes hn] at h0
    cases h0

/-- `/./..` is the root directory. -/
theorem namei_is_fold_root :
    ∃ r s', namei initproc [slash, 46#8, slash, 46#8, 46#8] emptyBoot = .ok (r, s') ∧
      r.map (fun b => (s'.inode b).inum) = some rootino := by
  have hfree : TwoFree fun b => (emptyBoot.inode b).ref := ⟨1, 2, by decide, by decide, by decide⟩
  obtain ⟨hnamei, -, hreturns⟩ := namei_is_fold emptyBoot initproc 0
    [slash, 46#8, slash, 46#8, 46#8] emptyBoot_inTree
  obtain ⟨⟨r, s', hr⟩, -⟩ := hreturns hfree
  refine ⟨r, s', hr, ?_⟩
  rw [(hnamei r s' hr).1]
  decide +kernel

end Xv6Mmap.Fs
