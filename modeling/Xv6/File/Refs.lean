import Xv6.File.Accounts

namespace Xv6

open RefCount

variable {n : Nat}

namespace Files

theorem tally_install (o : Ofile) (fd : Fin nofile) (f g : Fin nfile) :
    tally (Function.update o fd (some f)) g ≤ tally o g + if g = f then 1 else 0 := by
  have := tally_update o fd (some f) g
  simp only [Option.some.injEq, eq_comm (a := f)] at this
  omega

theorem tally_clear {o : Ofile} {fd : Fin nofile} {f : Fin nfile} (h : o fd = some f)
    (g : Fin nfile) :
    tally (Function.update o fd none) g + (if g = f then 1 else 0) ≤ tally o g := by
  have := tally_update o fd none g
  simp only [h, Option.some.injEq, reduceCtorEq, if_false, eq_comm (a := f)] at this
  omega

theorem files_alloc {ft ft' : Ftable} {f : Fin nfile} (h : filealloc ft = some (f, ft')) :
    (ft f).ref + 1 ≤ (ft' f).ref ∧ ∀ g, g ≠ f → (ft g).ref ≤ (ft' g).ref := by
  obtain ⟨hr, rfl⟩ := filealloc_some h
  refine ⟨by simp [hr], fun g hg => ?_⟩
  rw [Function.update_of_ne hg]

theorem files_dup {ft ft' : Ftable} {f : Fin nfile} (hb : (ft f).ref < 2 ^ 31 - 1)
    (h : filedup ft f = some ft') :
    (ft f).ref + 1 ≤ (ft' f).ref ∧ ∀ g, g ≠ f → (ft g).ref ≤ (ft' g).ref := by
  obtain ⟨hr, rfl⟩ := filedup_some h
  refine ⟨?_, fun g hg => ?_⟩
  · rw [Function.update_self]
    exact le_of_eq (int32_succ (by omega) hb).symm
  · rw [Function.update_of_ne hg]

theorem files_close {ft ft' : Ftable} {f : Fin nfile} {ip : Option (Fin ninode)}
    (h : fileclose ft f = some (ft', ip)) :
    (ft f).ref - 1 ≤ (ft' f).ref ∧ ∀ g, g ≠ f → (ft g).ref ≤ (ft' g).ref := by
  rcases fileclose_some h with ⟨hr, rfl, _⟩ | ⟨hr, rfl, _⟩
  · exact ⟨by simp, fun g hg => by rw [Function.update_of_ne hg]⟩
  · exact ⟨by simp [hr], fun g hg => by rw [Function.update_of_ne hg]⟩

theorem setType_ref (ft : Ftable) (f g : Fin nfile) (type : FileType) (ip : Option (Fin ninode)) :
    (setType ft f type ip g).ref = (ft g).ref := by
  by_cases hg : g = f
  · subst hg; simp [setType]
  · simp [setType, hg]

theorem count_file_cons (f g : Fin nfile) (ds : List Drop) :
    (Drop.file f :: ds).count (.file g) = ds.count (.file g) + if g = f then 1 else 0 := by
  by_cases h : g = f
  · subst h; simp
  · simp [h, List.count_cons_of_ne (a := Drop.file g) (b := Drop.file f) (by simpa using Ne.symm h)]

theorem count_inode_cons (j k : Fin ninode) (ds : List Drop) :
    (Drop.inode j :: ds).count (.inode k) = ds.count (.inode k) + if k = j then 1 else 0 := by
  by_cases h : k = j
  · subst h; simp
  · simp [h, List.count_cons_of_ne (a := Drop.inode k) (b := Drop.inode j) (by simpa using Ne.symm h)]

theorem count_file_put (ip : Option (Fin ninode)) (f : Fin nfile) :
    (ip.toList.map Drop.inode).count (.file f) = 0 := by
  cases ip <;> simp

theorem groups_returns {s : Procs n} {i : Fin n} (h : s.pc i = .user) (r : Int) :
    (s.returns i r).groups = s.groups := by
  have hpc : Function.update s.pc i .user = s.pc := by
    rw [← h]
    exact Function.update_eq_self i s.pc
  simp [Procs.groups, hpc]

section Frame

variable {s t : Files n} {i : Fin n} {op : FileOp}

theorem fstep_procs (hop : ∀ op', op ≠ .proc op') (hk : FStep s i op t) :
    t.procs.ptable = s.procs.ptable ∧ t.procs.groups = s.procs.groups := by
  cases hk with
  | proc => exact absurd rfl (hop _)
  | lookupFail hpc | openStore hpc | chdirStore hpc | refused hpc | dup hpc | pipeNext hpc
    | dropped hpc => exact ⟨rfl, groups_returns hpc _⟩
  | @exitPut fd ip => cases ip <;> exact ⟨rfl, rfl⟩
  | _ => exact ⟨rfl, rfl⟩

theorem fstep_fpc (hop : ∀ op', op ≠ .proc op') (hk : FStep s i op t) :
    s.fpc i ≠ .exited ∧ ∀ p, p ≠ i → t.fpc p = s.fpc p := by
  cases hk with
  | proc => exact absurd rfl (hop _)
  | forkSkip hpc hf | forkDup hpc hf =>
    exact ⟨by rcases hf with hf | ⟨hf, _⟩ <;> simp [hf], fun p hp => by simp [install, hp]⟩
  | @exitPut fd ip hpc hf =>
    cases ip <;> exact ⟨by simp [hf], fun p hp => by simp [Files.exitPut, clear, hp]⟩
  | exitClose hpc hf => exact ⟨by simp [hf], fun p hp => rfl⟩
  | _ => exact ⟨by simp [*], fun p hp => by simp [allocated, install, clear, hp]⟩

theorem fstep_ofile (hop : ∀ op', op ≠ .proc op') (hk : FStep s i op t) (p : Fin n) (hp : p ≠ i) :
    t.ofile p = s.ofile p ∨ s.procs.pc i = .forkPublish p := by
  cases hk with
  | proc => exact absurd rfl (hop _)
  | @forkDup np k hk f ft hpc =>
    by_cases hpn : p = np
    · subst hpn
      exact Or.inr hpc
    · exact Or.inl (by simp [install, hpn])
  | @exitPut fd ip => cases ip <;> exact Or.inl (by simp [Files.exitPut, clear, hp])
  | _ => exact Or.inl (by simp [allocated, install, clear, hp])

theorem fstep_local (hop : ∀ op', op ≠ .proc op') (hk : FStep s i op t)
    (hno : ∀ np, s.procs.pc i ≠ .forkPublish np) : Local s t i i :=
  ⟨(fstep_procs hop hk).1, fun p hp => (fstep_ofile hop hk p hp).resolve_right (hno p),
    (fstep_fpc hop hk).2⟩

end Frame

theorem files_step {s t : Files n} {i : Fin n} {op : FileOp} (h : s.Refs) (hb : s.Bounded)
    (hu : s.Unshared (i, op)) (hs : (s.procs.ptable i).state = .running)
    (hop : ∀ op', op ≠ .proc op') (hk : FStep s i op t) :
    t.fileBooks.Backed fun f => (t.ftable f).ref := by
  have hlive : s.live i := by simp [Files.live, Proc.live, hs]
  have hl := fstep_local hop hk
  cases hk with
  | proc => exact absurd rfl (hop _)
  | lookup hpc hf | next hpc hf | putParent hpc hf | lookupFail hpc hf | openFull hpc hf
    | chdirPut hpc hf | chdirStore hpc hf | refused hpc hf | dropped hpc hf | dropInode hpc hf
    | exitCwd hpc hf | exitStore hpc hf =>
    exact files_keep h.files (hl (by simp [hpc])) (fun _ => le_rfl)
      (fun f => by simp [held, hf]) (fun f => by simp [FilePc.file, hf])
  | @openNoFd ip f ft hpc hf ha =>
    exact files_takeCall h.files (hl (by simp [hpc])) f
      (files_alloc ha).1 (files_alloc ha).2 (fun g => by simp [held, hf, allocated])
      (fun g => by simp [FilePc.file, hf, count_file_cons])
  | @openAlloc ip f ft fd hpc hf ha hfd =>
    refine files_takeProc h.files (hl (by simp [hpc])) f
      (files_alloc ha).1 (files_alloc ha).2 (fun hii => absurd rfl hii) ?_ ?_
    · intro g
      simp [FilePc.file, hf]
    · intro g
      simpa [held, hf, install, allocated] using tally_install (s.ofile i) fd f g
  | openStore hpc hf =>
    exact files_keep h.files (hl (by simp [hpc]))
      (fun g => by simp [setType_ref]) (fun f => by simp [held, hf])
      (fun f => by simp [FilePc.file, hf])
  | @dup fd fd' f ft hpc hf hfd hfd' hd =>
    refine files_takeProc h.files (hl (by simp [hpc])) f
      (files_dup (hb.1 f) hd).1 (files_dup (hb.1 f) hd).2 (fun hii => absurd rfl hii) ?_ ?_
    · intro g
      simp [FilePc.file, hf]
    · intro g
      simpa [held, hf, install] using tally_install (s.ofile i) fd' f g
  | @close fd f hpc hf hfd =>
    refine files_procToCall h.files (hl (by simp [hpc])) f hlive (hu.1 f hfd)
      (fun g => le_rfl) ?_ ?_
    · intro g
      simpa [held, hf, clear] using tally_clear hfd g
    · intro g
      simp [FilePc.file, hf, count_file_cons]
  | @pipe f ft hpc hf ha =>
    exact files_takeCall h.files (hl (by simp [hpc])) f
      (files_alloc ha).1 (files_alloc ha).2 (fun g => by simp [held, hf, allocated])
      (fun g => by simp [FilePc.file, hf])
  | @pipeFull mem f hpc hf =>
    exact files_keep h.files (hl (by simp [hpc])) (fun _ => le_rfl)
      (fun g => by simp [held, hf]) (fun g => by simp [FilePc.file, hf, count_file_cons])
  | @pipeFail mem f f1 ft ft' hpc hf ha hft =>
    have href : ∀ g, (ft' g).ref = (ft g).ref := by
      rcases hft with rfl | rfl <;> simp [setType_ref]
    refine files_takeCall h.files (hl (by simp [hpc])) f1 ?_ ?_
      (fun g => by simp [held, hf, allocated]) (fun g => ?_)
    · exact (files_alloc ha).1.trans_eq (href f1).symm
    · exact fun g hg => ((files_alloc ha).2 g hg).trans_eq (href g).symm
    · simp [FilePc.file, hf, count_file_cons, Nat.add_comm]
  | @pipeUndo mem f f1 ft ft' fd0 hpc hf ha hft h0 =>
    have href : ∀ g, (ft' g).ref = (ft g).ref := by
      subst hft
      simp [setType_ref]
    have hrow : Function.update (s.ofile i) fd0 none = s.ofile i := by
      rw [← fdalloc_some h0]
      exact Function.update_eq_self fd0 (s.ofile i)
    refine files_takeCall h.files (hl (by simp [hpc])) f1 ?_ ?_ (fun g => ?_) (fun g => ?_)
    · exact (files_alloc ha).1.trans_eq (href f1).symm
    · exact fun g hg => ((files_alloc ha).2 g hg).trans_eq (href g).symm
    · simp [held, hf, allocated, install, clear, hrow]
    · simp [FilePc.file, hf, count_file_cons, Nat.add_comm]
  | @pipeNext mem f f1 ft ft' fd0 fd1 hpc hf ha hft h0 h1 =>
    have href : ∀ g, (ft' g).ref = (ft g).ref := by
      subst hft
      simp [setType_ref]
    -- the first file passes from the call to the table, then the second is taken
    have hmid : ((s.install i fd0 f).returns i 0).fileBooks.Backed fun g => (s.ftable g).ref := by
      refine files_callToProc h.files (i := i) ⟨rfl, fun p hp => ?_, fun p hp => ?_⟩ f
        (fun g => le_rfl) (fun g => ?_) (fun g => ?_)
      · simp [install, hp]
      · simp [install, hp]
      · simpa [held, hf, install] using tally_install (s.ofile i) fd0 f g
      · simp [FilePc.file, hf]
    refine files_takeProc hmid (i := i) (q := i) ⟨rfl, fun p hp => ?_, fun p hp => ?_⟩ f1 ?_ ?_
      (fun hii => absurd rfl hii) (fun g => ?_) (fun g => ?_)
    · simp [install, allocated, hp]
    · simp [install, allocated, hp]
    · exact (files_alloc ha).1.trans_eq (href f1).symm
    · exact fun g hg => ((files_alloc ha).2 g hg).trans_eq (href g).symm
    · simp [FilePc.file]
    · simpa [held, install, allocated] using
        tally_install (Function.update (s.ofile i) fd0 (some f)) fd1 f1 g
  | @dropFile f ds r ft ip hpc hf hc =>
    refine files_dropCall h.files (hl (by simp [hpc])) f
      (files_close hc).1 (files_close hc).2 (fun g => by simp [held, hf]) ?_
    intro g
    simp [FilePc.file, hf, count_file_put, count_file_cons]
  | @forkSkip np k hk hpc hf hfd =>
    refine files_keep h.files (i := i) ⟨rfl, fun _ _ => rfl, fun p hp => by simp [hp]⟩
      (fun _ => le_rfl) ?_ ?_
    · intro g
      rcases hf with hf | ⟨hf, _⟩ <;> simp [held, hf]
    · intro g
      simp [FilePc.file]
  | @forkDup np k hk f ft hpc hf hfd hd =>
    have hembryo := (h.spawning.slot i np (by simp [Procs.groups, hpc, ProcPc.spawning])).2
    have hne : i ≠ np := by
      rintro rfl
      simp [Procs.groups, Proc.core, hs, ProcState.phase] at hembryo
    have hidle : s.fpc np = .idle := h.idle np (fun hact => by
      rw [Procs.phase_active.mpr hact] at hembryo
      cases hembryo)
    refine files_takeProc h.files (i := i) (q := np) ⟨rfl, fun p hp => ?_, fun p hp => ?_⟩ f
      (files_dup (hb.1 f) hd).1 (files_dup (hb.1 f) hd).2 (fun _ g => ?_) (fun g => ?_)
      (fun g => ?_)
    · simp [install, hp]
    · simp [install, hp]
    · rcases hf with hf | ⟨hf, _⟩ <;> simp [held, hf, install, hne]
    · simp [FilePc.file]
    · simpa [held, hidle, install, hne.symm] using tally_install (s.ofile np) ⟨k, hk⟩ f g
  | @exitClose fd f ft ip hpc hf ho hc hr =>
    refine files_dropProc h.files (hl (by simp [hpc])) f hlive (hu.1 f (by simp [closes, ho]))
      (files_close hc).1 (files_close hc).2 ?_ ?_
    · intro g
      simpa [held, hf, clear] using tally_clear (openFd_some ho) g
    · intro g
      simp [clear]
  | @exitCloseLast fd f ft ip hpc hf ho hc hr =>
    refine files_dropProc h.files (hl (by simp [hpc])) f hlive (hu.1 f (by simp [closes, ho]))
      (files_close hc).1 (files_close hc).2 ?_ ?_
    · intro g
      simpa [held, hf] using tally_clear (openFd_some ho) g
    · intro g
      simp [FilePc.file]
  | @exitPut fd ip hpc hf =>
    cases ip with
    | none | some ip =>
      refine files_keep h.files (hl (by simp [hpc])) (fun _ => le_rfl)
        (fun g => ?_) (fun g => ?_)
      · simp [Files.exitPut, held, hf, clear]
      · simp [Files.exitPut, FilePc.file]

theorem inode_setRef (ft : Ftable) (f g : Fin nfile) (r : Int) :
    (Function.update ft f { ft f with ref := r } g).inode = (ft g).inode := by
  by_cases hg : g = f
  · subst hg
    funext j
    simp [File.inode]
  · rw [Function.update_of_ne hg]

theorem inode_alloc {ft ft' : Ftable} {f : Fin nfile} (h : filealloc ft = some (f, ft'))
    (g : Fin nfile) : (ft' g).inode = (ft g).inode := by
  obtain ⟨_, rfl⟩ := filealloc_some h
  exact inode_setRef ft f g 1

theorem inode_dup {ft ft' : Ftable} {f : Fin nfile} (h : filedup ft f = some ft')
    (g : Fin nfile) : (ft' g).inode = (ft g).inode := by
  obtain ⟨_, rfl⟩ := filedup_some h
  exact inode_setRef ft f g _

theorem inode_pipe (ft : Ftable) (f g : Fin nfile) (ip : Option (Fin ninode)) (j : Fin ninode) :
    (setType ft f .pipe ip g).inode j ≤ (ft g).inode j := by
  by_cases hg : g = f
  · subst hg
    simp [setType, File.inode]
  · simp [setType, hg]

theorem inode_close {ft ft' : Ftable} {f : Fin nfile} {ip : Option (Fin ninode)}
    (h : fileclose ft f = some (ft', ip)) :
    (∀ g, g ≠ f → (ft' g).inode = (ft g).inode) ∧
      ∀ j, (ft' f).inode j + (if ip = some j then 1 else 0) = (ft f).inode j := by
  rcases fileclose_some h with ⟨_, rfl, rfl⟩ | ⟨_, rfl, rfl⟩
  · refine ⟨fun g _ => inode_setRef ft f g _, fun j => ?_⟩
    rw [inode_setRef]
    simp
  · refine ⟨fun g hg => by rw [Function.update_of_ne hg], fun j => ?_⟩
    by_cases ht : (ft f).type = .inode <;> simp [File.inode, ht]

theorem takes_ref {ic ic' : Icache} {j : Fin ninode} (hb : (ic j).ref < 2 ^ 31 - 1)
    (h : Takes ic j ic') :
    (ic j).ref + 1 ≤ (ic' j).ref ∧ ∀ k, k ≠ j → (ic k).ref ≤ (ic' k).ref := by
  rcases h with ⟨hr, rfl⟩ | ⟨hr, inum, rfl⟩
  · refine ⟨?_, fun k hk => by simp [idup, hk]⟩
    rw [idup, Function.update_self]
    exact le_of_eq (int32_succ (by omega) hb).symm
  · exact ⟨by simp [hr], fun k hk => by simp [hk]⟩

theorem iput_ref {ic : Icache} {j : Fin ninode} (hr : 1 ≤ (ic j).ref)
    (hb : (ic j).ref < 2 ^ 31 - 1) :
    (ic j).ref - 1 ≤ (iput ic j j).ref ∧ ∀ k, k ≠ j → (ic k).ref ≤ (iput ic j k).ref := by
  refine ⟨?_, fun k hk => by simp [iput, hk]⟩
  rw [iput, Function.update_self]
  exact le_of_eq (int32_pred hr (by omega)).symm

theorem Refs.call_alive {s : Files n} (h : s.Refs) {i : Fin n} {j : Fin ninode}
    (hj : 0 < (s.fpc i).inode j) : 1 ≤ (s.icache j).ref :=
  h.inodes.alive (a := .call i) trivial hj

theorem lookup_ref {s : Files n} {i : Fin n} {root : Bool} {ip : Fin ninode} {ic : Icache}
    (h : s.Refs) (hb : s.Bounded) (hlive : s.live i) (hw : s.workdir i = s.cwd i)
    (hl : s.lookup i root = some (ip, ic)) :
    (s.icache ip).ref + 1 ≤ (ic ip).ref ∧ ∀ k, k ≠ ip → (s.icache k).ref ≤ (ic k).ref := by
  rcases lookup_takes hl with htake | ⟨hcwd, rfl⟩
  · exact takes_ref (hb.2 ip) htake
  · have hr := h.inode_alive hlive (hw.trans hcwd)
    exact takes_ref (hb.2 ip) (Or.inl ⟨by omega, rfl⟩)

theorem inodes_close {s t : Files n} {i : Fin n} {f : Fin nfile} {ft : Ftable}
    {ip : Option (Fin ninode)} (h : s.inodeBooks.Backed fun j => (s.icache j).ref)
    (hw : s.workdir i = s.cwd i) (hl : Local s t i i)
    (hcl : fileclose s.ftable f = some (ft, ip)) (hft : t.ftable = ft)
    (hic : t.icache = s.icache) (hcwd : t.cwd = s.cwd)
    (hc : ∀ k, (t.fpc i).inode k ≤ (s.fpc i).inode k + if ip = some k then 1 else 0) :
    t.inodeBooks.Backed fun j => (t.icache j).ref := by
  subst hft
  obtain ⟨hother, hf⟩ := inode_close hcl
  cases ip with
  | none =>
    refine inodes_keep h hw hl (fun j => by rw [hic]) hcwd (fun g j => ?_) (by simpa using hc)
    by_cases hg : g = f
    · subst hg
      exact le_of_eq (by simpa using hf j)
    · exact le_of_eq (congrFun (hother g hg) j)
  | some j =>
    simp only [Option.some.injEq, eq_comm (a := j)] at hc hf
    exact inodes_fileToCall h hw hl j f (fun k => by rw [hic]) hcwd
      (fun g hg k => le_of_eq (congrFun (hother g hg) k)) (fun k => le_of_eq (hf k)) hc

theorem inodes_step {s t : Files n} {i : Fin n} {op : FileOp} (h : s.Refs) (hb : s.Bounded)
    (hu : s.Unshared (i, op)) (hs : (s.procs.ptable i).state = .running)
    (hop : ∀ op', op ≠ .proc op') (hk : FStep s i op t) :
    t.inodeBooks.Backed fun j => (t.icache j).ref := by
  have hlive : s.live i := by simp [Files.live, Proc.live, hs]
  have hl := fstep_local hop hk
  cases hk with
  | proc => exact absurd rfl (hop _)
  | @lookup g root ip ic hpc hf hlook =>
    have hw : s.workdir i = s.cwd i := by simp [workdir, hf]
    have href := lookup_ref h hb hlive hw hlook
    exact inodes_takeCall h.inodes hw (hl (by simp [hpc])) ip href.1 href.2 rfl (fun g j => le_rfl)
      (fun k => by simp [FilePc.inode, hf])
  | @next g inum ip next ic hpc hf hget =>
    have href := takes_ref (hb.2 next) (iget_takes hget)
    exact inodes_takeCall h.inodes (by simp [workdir, hf]) (hl (by simp [hpc]))
      next href.1 href.2 rfl (fun g j => le_rfl) (fun k => by simp [FilePc.inode, hf])
  | @putParent g ip next hpc hf =>
    have href := iput_ref (h.call_alive (i := i) (j := ip) (by simp [FilePc.inode, hf]))
      (hb.2 ip)
    exact inodes_dropCall h.inodes (by simp [workdir, hf]) (hl (by simp [hpc]))
      ip href.1 href.2 rfl (fun g j => le_rfl)
      (fun k => by simp [FilePc.inode, hf, Nat.add_comm])
  | @lookupFail g ip hpc hf =>
    have href := iput_ref (h.call_alive (i := i) (j := ip) (by simp [FilePc.inode, hf]))
      (hb.2 ip)
    exact inodes_dropCall h.inodes (by simp [workdir, hf]) (hl (by simp [hpc]))
      ip href.1 href.2 rfl (fun g j => le_rfl) (fun k => by simp [FilePc.inode, hf])
  | @openFull ip hpc hf =>
    exact inodes_keep h.inodes (by simp [workdir, hf]) (hl (by simp [hpc]))
      (fun _ => le_rfl) rfl (fun _ _ => le_rfl)
      (fun k => by simp [FilePc.inode, hf, count_inode_cons])
  | @openNoFd ip f ft hpc hf ha =>
    exact inodes_keep h.inodes (by simp [workdir, hf]) (hl (by simp [hpc])) (fun _ => le_rfl) rfl
      (fun g j => le_of_eq (congrFun (inode_alloc ha g) j))
      (fun k => by simp [FilePc.inode, hf, count_inode_cons])
  | @openAlloc ip f ft fd hpc hf ha hfd =>
    refine inodes_keep h.inodes (by simp [workdir, hf]) (hl (by simp [hpc]))
      (fun _ => le_rfl) rfl (fun g j => le_of_eq (congrFun (inode_alloc ha g) j))
      (fun k => by simp [FilePc.inode, hf])
  | @openStore f ip fd hpc hf =>
    refine inodes_callToFile h.inodes (by simp [workdir, hf]) (hl (by simp [hpc])) ip f
      (fun _ => le_rfl) rfl (fun g hg j => ?_) (fun k => ?_) (fun k => by simp [FilePc.inode, hf])
    · simp [setType, hg]
    · simp [setType, File.inode, eq_comm]
  | @chdirPut ip old hpc hf hold =>
    have hw : s.workdir i = s.cwd i := by simp [workdir, hf]
    have href := iput_ref (h.inode_alive hlive (hw.trans hold)) (hb.2 old)
    exact inodes_dropProc h.inodes hw (hl (by simp [hpc])) old hlive hold (hu.2.1 (Or.inl rfl))
      href.1 href.2 rfl (by simp [workdir]) (fun _ _ => le_rfl)
      (fun k => by simp [FilePc.inode, hf])
  | @chdirStore ip hpc hf =>
    exact inodes_callToProc h.inodes (hl (by simp [hpc])) ip (fun _ => le_rfl) rfl
      (fun _ _ => le_rfl) (fun k => by simp [FilePc.inode, hf])
  | refused hpc hf | pipeFull hpc hf | dropped hpc hf =>
    exact inodes_keep h.inodes (by simp [workdir, hf]) (hl (by simp [hpc]))
      (fun _ => le_rfl) rfl (fun _ _ => le_rfl) (fun k => by simp [FilePc.inode, hf])
  | @dup fd fd' f ft hpc hf hfd hfd' hd =>
    refine inodes_keep h.inodes (by simp [workdir, hf]) (hl (by simp [hpc]))
      (fun _ => le_rfl) rfl (fun g j => le_of_eq (congrFun (inode_dup hd g) j))
      (fun k => by simp [FilePc.inode, hf])
  | @close fd f hpc hf hfd =>
    refine inodes_keep h.inodes (by simp [workdir, hf]) (hl (by simp [hpc]))
      (fun _ => le_rfl) rfl (fun _ _ => le_rfl) (fun k => by simp [FilePc.inode, hf])
  | @pipe f ft hpc hf ha =>
    exact inodes_keep h.inodes (by simp [workdir, hf]) (hl (by simp [hpc])) (fun _ => le_rfl) rfl
      (fun g j => le_of_eq (congrFun (inode_alloc ha g) j)) (fun k => by simp [FilePc.inode, hf])
  | @pipeFail mem f f1 ft ft' hpc hf ha hft =>
    refine inodes_keep h.inodes (by simp [workdir, hf]) (hl (by simp [hpc])) (fun _ => le_rfl) rfl
      (fun g j => ?_) (fun k => by simp [FilePc.inode, hf])
    rw [← inode_alloc ha g]
    rcases hft with rfl | rfl
    · exact le_rfl
    · exact (inode_pipe _ f1 g _ j).trans (inode_pipe ft f g _ j)
  | @pipeUndo mem f f1 ft ft' fd0 hpc hf ha hft h0 =>
    refine inodes_keep h.inodes (by simp [workdir, hf]) (hl (by simp [hpc]))
      (fun _ => le_rfl) rfl (fun g j => ?_) (fun k => by simp [FilePc.inode, hf])
    · rw [← inode_alloc ha g]
      subst hft
      exact (inode_pipe _ f1 g _ j).trans (inode_pipe ft f g _ j)
  | @pipeNext mem f f1 ft ft' fd0 fd1 hpc hf ha hft h0 h1 =>
    refine inodes_keep h.inodes (by simp [workdir, hf]) (hl (by simp [hpc]))
      (fun _ => le_rfl) rfl (fun g j => ?_) (fun k => by simp [FilePc.inode, hf])
    · rw [← inode_alloc ha g]
      subst hft
      exact (inode_pipe _ f1 g _ j).trans (inode_pipe ft f g _ j)
  | @dropInode j ds r hpc hf =>
    have href := iput_ref (h.call_alive (i := i) (j := j)
      (by simp [FilePc.inode, hf])) (hb.2 j)
    exact inodes_dropCall h.inodes (by simp [workdir, hf]) (hl (by simp [hpc]))
      j href.1 href.2 rfl (fun g j => le_rfl)
      (fun k => by simp [FilePc.inode, hf, count_inode_cons])
  | @dropFile f ds r ft ip hpc hf hc =>
    refine inodes_close h.inodes (by simp [workdir, hf]) (hl (by simp [hpc])) hc rfl rfl
      rfl (fun k => ?_)
    cases ip with
    | none => simp [FilePc.inode, hf]
    | some ip => simp [FilePc.inode, hf, count_inode_cons, eq_comm]
  | @forkSkip np k hk hpc hf hfd =>
    have hw : s.workdir i = s.cwd i := by rcases hf with hf | ⟨hf, _⟩ <;> simp [workdir, hf]
    exact inodes_keep h.inodes hw (q := i) ⟨rfl, fun _ _ => rfl, fun p hp => by simp [hp]⟩
      (fun _ => le_rfl) rfl (fun _ _ => le_rfl) (fun k => by simp [FilePc.inode])
  | @forkDup np k hk f ft hpc hf hfd hd =>
    have hw : s.workdir i = s.cwd i := by rcases hf with hf | ⟨hf, _⟩ <;> simp [workdir, hf]
    refine inodes_keep h.inodes hw (q := np) ⟨rfl, fun p hp => ?_, fun p hp => ?_⟩
      (fun _ => le_rfl) rfl (fun g j => le_of_eq (congrFun (inode_dup hd g) j))
      (fun k => by simp [FilePc.inode])
    · simp [install, hp]
    · simp [install, hp]
  | @exitClose fd f ft ip hpc hf ho hc hr =>
    exact inodes_close h.inodes (by simp [workdir, hf]) (hl (by simp [hpc])) hc
      rfl rfl rfl (fun k => by simp [clear])
  | @exitCloseLast fd f ft ip hpc hf ho hc hr =>
    exact inodes_close h.inodes (by simp [workdir, hf]) (hl (by simp [hpc])) hc
      rfl rfl rfl (fun k => by simp [FilePc.inode, hf])
  | @exitPut fd ip hpc hf =>
    cases ip with
    | none =>
      refine inodes_keep h.inodes (by simp [workdir, hf]) (hl (by simp [hpc]))
        (fun _ => le_rfl) rfl (fun _ _ => le_rfl) (fun k => by simp [Files.exitPut, FilePc.inode])
    | some ip =>
      have href := iput_ref (h.call_alive (i := i) (j := ip) (by simp [FilePc.inode, hf]))
        (hb.2 ip)
      refine inodes_dropCall h.inodes (by simp [workdir, hf]) (hl (by simp [hpc])) ip
        href.1 href.2 rfl (fun _ _ => le_rfl)
        (fun k => by simp [Files.exitPut, FilePc.inode, hf, eq_comm])
  | @exitCwd ip hpc hf ho hc =>
    have hw : s.workdir i = s.cwd i := by simp [workdir, hf]
    have href := iput_ref (h.inode_alive hlive (hw.trans hc)) (hb.2 ip)
    exact inodes_dropProc h.inodes hw (hl (by simp [hpc])) ip hlive hc (hu.2.1 (Or.inr rfl)) href.1
      href.2 rfl (by simp [workdir]) (fun _ _ => le_rfl) (fun k => by simp [FilePc.inode, hf])
  | exitStore hpc hf =>
    have hl := hl (by simp [hpc])
    refine h.inodes.weaken (fun _ => le_rfl) fun a => (hl.inode_kept (fun p _ j hj => ?_)
      (fun _ _ _ => le_rfl) fun _ j => by simp [FilePc.inode]).covered
    have hp : p ≠ i := by
      rintro rfl
      simp [workdir] at hj
    rwa [workdir_congr (hl.fpc p hp) (by simp [hp])] at hj

theorem iput_inum (ic : Icache) (j k : Fin ninode) : (iput ic j k).inum = (ic k).inum := by
  by_cases hk : k = j
  · subst hk; simp [iput]
  · simp [iput, hk]

theorem idup_inum (ic : Icache) (j k : Fin ninode) : (idup ic j k).inum = (ic k).inum := by
  by_cases hk : k = j
  · subst hk; simp [idup]
  · simp [idup, hk]

theorem takes_inum {ic ic' : Icache} {j : Fin ninode} (h : Takes ic j ic') (k : Fin ninode) :
    (ic' k).inum = (ic k).inum ∨ (ic k).ref = 0 := by
  rcases h with ⟨_, rfl⟩ | ⟨hr, inum, rfl⟩
  · exact Or.inl (idup_inum ic j k)
  · by_cases hk : k = j
    · subst hk
      exact Or.inr hr
    · exact Or.inl (by simp [hk])

variable {s t : Files n} {i : Fin n} {op : FileOp}

theorem fstep_inum (hop : ∀ op', op ≠ .proc op') (hk : FStep s i op t) (j : Fin ninode) :
    (t.icache j).inum = (s.icache j).inum ∨ (s.icache j).ref = 0 := by
  cases hk with
  | proc => exact absurd rfl (hop _)
  | lookup hpc hf hl =>
    rcases lookup_takes hl with htake | ⟨_, rfl⟩
    · exact takes_inum htake j
    · exact Or.inl (idup_inum _ _ j)
  | next hpc hf hl => exact takes_inum (iget_takes hl) j
  | @exitPut fd ip =>
    cases ip with
    | none => exact Or.inl rfl
    | some ip => exact Or.inl (iput_inum s.icache ip j)
  | putParent | lookupFail | chdirPut | dropInode | exitCwd => exact Or.inl (iput_inum _ _ j)
  | _ => exact Or.inl rfl

theorem fstep_opened (hop : ∀ op', op ≠ .proc op') (hk : FStep s i op t) (f : Fin nfile) :
    t.opened f = s.opened f ∨ (s.ftable f).ref = 0 := by
  cases hk with
  | proc => exact absurd rfl (hop _)
  | @openNoFd _ g _ _ _ ha | @openAlloc _ g _ _ _ _ ha | @pipe g _ _ _ ha
    | @pipeFail _ _ g _ _ _ _ ha | @pipeUndo _ _ g _ _ _ _ _ ha | @pipeNext _ _ g _ _ _ _ _ _ ha =>
    by_cases hf : f = g
    · subst hf
      exact Or.inr (filealloc_some ha).1
    · exact Or.inl (by simp [allocated, install, clear, hf])
  | @exitPut fd ip => cases ip <;> exact Or.inl rfl
  | _ => exact Or.inl rfl

theorem fstep_cwd (hop : ∀ op', op ≠ .proc op') (hk : FStep s i op t) (p : Fin n)
    (hnone : t.cwd p = none) : s.cwd p = none ∨ t.fpc p = .exited := by
  cases hk with
  | proc => exact absurd rfl (hop _)
  | chdirStore | exitStore =>
    by_cases hp : p = i
    · subst hp; simp_all
    · exact Or.inl (by simpa [hp] using hnone)
  | @exitPut fd ip => cases ip <;> exact Or.inl hnone
  | _ => exact Or.inl hnone

theorem fstep_home (hop : ∀ op', op ≠ .proc op') (hk : FStep s i op t) {p : Fin n}
    {j : Fin ninode} (hj : t.workdir p = some j) :
    (t.icache j).inum = t.home p ∨ s.workdir p = some j ∧ t.home p = s.home p := by
  have hother := (fstep_fpc hop hk).2
  cases hk with
  | proc => exact absurd rfl (hop _)
  | @chdirStore ip hpc hf =>
    by_cases hp : p = i
    · subst hp
      obtain rfl : ip = j := by simpa using workdir_cwd hj
      exact Or.inl (by simp)
    · rw [workdir_congr (hother p hp) (by simp [hp])] at hj
      exact Or.inr ⟨hj, by simp [hp]⟩
  | exitStore hpc hf =>
    by_cases hp : p = i
    · subst hp; simp [workdir] at hj
    · rw [workdir_congr (hother p hp) (by simp [hp])] at hj
      exact Or.inr ⟨hj, rfl⟩
  | forkSkip hpc hf | forkDup hpc hf =>
    exact Or.inr ⟨workdir_of hother (by rcases hf with hf | ⟨hf, _⟩ <;> simp [workdir, hf]) rfl hj,
      rfl⟩
  | @exitPut fd ip hpc hf =>
    cases ip <;> exact Or.inr ⟨workdir_of hother (by simp [workdir, hf]) rfl hj, rfl⟩
  | _ => exact Or.inr ⟨workdir_of hother (by simp [workdir, *]) rfl hj, rfl⟩

theorem held_some {p : Fin n} {fd : Fin nofile} {f : Fin nfile} :
    s.held p fd = some f ↔ s.ofile p fd = some f ∧ ∀ ip, s.fpc p ≠ .exitPut fd ip := by
  cases hf : s.fpc p with
  | exitPut fd' ip =>
    by_cases hfd : fd = fd'
    · subst hfd; simp [held, hf]
    · simp [held, hf, hfd, Ne.symm hfd]
  | _ => simp [held, hf]

theorem install_ofile {q p : Fin n} {fd fd' : Fin nofile} {f f' : Fin nfile}
    (h : (s.install q fd f).ofile p fd' = some f') :
    (s.install q fd f).since p fd' = s.opened f' ∨
      s.ofile p fd' = some f' ∧ (s.install q fd f).since p fd' = s.since p fd' := by
  by_cases hp : p = q
  · subst hp
    by_cases hfd : fd' = fd
    · subst hfd
      obtain rfl : f = f' := by simpa [install] using h
      exact Or.inl (by simp [install])
    · exact Or.inr (by simpa [install, hfd] using h)
  · exact Or.inr (by simpa [install, hp] using h)

theorem clear_ofile {q p : Fin n} {fd fd' : Fin nofile} {f : Fin nfile}
    (h : (s.clear q fd).ofile p fd' = some f) : s.ofile p fd' = some f ∧ (p = q → fd' ≠ fd) := by
  by_cases hp : p = q
  · subst hp
    by_cases hfd : fd' = fd
    · subst hfd; simp [clear] at h
    · exact ⟨by simpa [clear, hfd] using h, fun _ => hfd⟩
  · exact ⟨by simpa [clear, hp] using h, fun hpq => absurd hpq hp⟩

theorem fstep_since (hop : ∀ op', op ≠ .proc op') (hk : FStep s i op t) {p : Fin n}
    {fd : Fin nofile} {f : Fin nfile} (h : t.held p fd = some f) :
    t.since p fd = t.opened f ∨ s.held p fd = some f ∧ t.since p fd = s.since p fd := by
  have hother : p ≠ i → ∀ ip, s.fpc p ≠ .exitPut fd ip := by
    intro hp
    rw [← (fstep_fpc hop hk).2 p hp]
    exact (held_some.mp h).2
  have hopen : (∀ fd ip, s.fpc i ≠ .exitPut fd ip) → ∀ ip, s.fpc p ≠ .exitPut fd ip := by
    intro hi
    by_cases hp : p = i
    · subst hp
      exact hi fd
    · exact hother hp
  replace h := (held_some.mp h).1
  rw [held_some]
  cases hk with
  | proc => exact absurd rfl (hop _)
  | openAlloc hpc hf | dup hpc hf =>
    rcases install_ofile h with hs | ⟨ho, hs⟩
    · exact Or.inl hs
    · exact Or.inr ⟨⟨ho, hopen (by simp [hf])⟩, hs⟩
  | forkDup hpc hf =>
    rcases install_ofile h with hs | ⟨ho, hs⟩
    · exact Or.inl hs
    · exact Or.inr ⟨⟨ho, hopen (by rcases hf with hf | ⟨hf, _⟩ <;> simp [hf])⟩, hs⟩
  | pipeNext hpc hf =>
    rcases install_ofile h with hs | ⟨ho, hs⟩
    · exact Or.inl hs
    · rcases install_ofile ho with hs' | ⟨ho, hs'⟩
      · exact Or.inl (hs.trans hs')
      · exact Or.inr ⟨⟨ho, hopen (by simp [hf])⟩, hs.trans hs'⟩
  | pipeUndo hpc hf =>
    obtain ⟨ho, _⟩ := clear_ofile h
    rcases install_ofile ho with hs | ⟨ho, hs⟩
    · exact Or.inl hs
    · exact Or.inr ⟨⟨ho, hopen (by simp [hf])⟩, hs⟩
  | close hpc hf | exitClose hpc hf =>
    exact Or.inr ⟨⟨(clear_ofile h).1, hopen (by simp [hf])⟩, rfl⟩
  | forkSkip hpc hf =>
    exact Or.inr ⟨⟨h, hopen (by rcases hf with hf | ⟨hf, _⟩ <;> simp [hf])⟩, rfl⟩
  | @exitPut fd' ip hpc hf =>
    have hcl : (s.clear i fd').ofile p fd = some f := by cases ip <;> exact h
    obtain ⟨ho, hfd⟩ := clear_ofile hcl
    refine Or.inr ⟨⟨ho, ?_⟩, by cases ip <;> rfl⟩
    by_cases hp : p = i
    · subst hp
      simp [hf, Ne.symm (hfd rfl)]
    · exact hother hp
  | _ => exact Or.inr ⟨⟨h, hopen (by simp [*])⟩, rfl⟩

theorem running_tidy (h : s.Tidy) (hs : (s.procs.ptable i).state = .running)
    (hop : ∀ op', op ≠ .proc op') (hk : FStep s i op t) : t.Tidy := by
  obtain ⟨hpt, hgroups⟩ := fstep_procs hop hk
  refine ⟨hgroups ▸ h.spawning, fun p hp => ?_, fun p hp hno fd => ?_⟩
  · rw [hpt] at hp
    have hpi : p ≠ i := by
      rintro rfl
      exact hp (by simp [Proc.active, Proc.live, hs])
    rw [(fstep_fpc hop hk).2 p hpi, h.idle p hp]
  · have hpc : t.procs.pc = s.procs.pc := congrArg Groups.pc hgroups
    rw [hpt] at hp
    rw [hpc] at hno
    have hpi : p ≠ i := by
      rintro rfl
      simp [hp] at hs
    rw [(fstep_ofile hop hk p hpi).resolve_right (hno i)]
    exact h.embryo p hp hno fd

theorem running_refs (h : s.Refs) (hb : s.Bounded) (hu : s.Unshared (i, op))
    (hs : (s.procs.ptable i).state = .running) (hop : ∀ op', op ≠ .proc op')
    (hk : FStep s i op t) : t.Refs := by
  have hpt := (fstep_procs hop hk).1
  obtain ⟨hbusy, hfpc⟩ := fstep_fpc hop hk
  have hlive : ∀ p, t.live p ↔ s.live p := fun p => by simp only [Files.live, hpt]
  refine ⟨running_tidy h.toTidy hs hop hk, files_step h hb hu hs hop hk,
    inodes_step h hb hu hs hop hk, ?_, ?_, ?_⟩
  · intro p fd f hp hf
    rcases fstep_since hop hk hf with heq | ⟨hold, heq⟩
    · exact heq
    · have hr := h.file_alive ((hlive p).mp hp) hold
      rcases fstep_opened hop hk f with ho | hz
      · rw [heq, ho, h.since p fd f ((hlive p).mp hp) hold]
      · omega
  · intro p j hp hj
    rcases fstep_home hop hk hj with heq | ⟨hold, heq⟩
    · exact heq
    · have hr := h.inode_alive ((hlive p).mp hp) hold
      rcases fstep_inum hop hk j with ho | hz
      · rw [heq, ho, h.home p j ((hlive p).mp hp) hold]
      · omega
  · intro p hp hnone
    rw [hpt] at hp
    rcases fstep_cwd hop hk p hnone with hold | hx
    · have hx := h.cwd p hp hold
      have hpi : p ≠ i := by
        rintro rfl
        exact hbusy hx
      rw [hfpc p hpi, hx]
    · exact hx

end Files
end Xv6
