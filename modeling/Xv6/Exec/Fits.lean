import Xv6.Vm.Starved
import Xv6.Exec.Basic

namespace Xv6

structure Loading where
  sz : Nat
  mapped : Nat
  free : Nat
  deriving DecidableEq, Repr

namespace Loading

open Vm

variable (s : Loading)

def tables (i : Nat) : Bool := decide (i * 1024 < s.mapped)

def Keeps (newsz : Nat) : Prop :=
  TablesFit s.tables (pages s.sz) (pages newsz - pages s.sz) s.free

instance (newsz : Nat) : Decidable (s.Keeps newsz) :=
  inferInstanceAs (Decidable (TablesFit s.tables (pages s.sz) (pages newsz - pages s.sz) s.free))

def Any (_ : Loading) (_ : Nat) : Prop := True

def cost (newsz : Nat) : Nat := demand s.tables (pages s.sz) (pages newsz - pages s.sz)

-- allocuvm, on the sizes. In the third case it returns the new size without its last page.
def grow (newsz : Nat) : Option Loading :=
  if newsz < s.sz then some s
  else if s.cost newsz ≤ s.free then
    some ⟨newsz, s.mapped + (pages newsz - pages s.sz), s.free - s.cost newsz⟩
  else if ¬ s.Keeps newsz ∧ s.cost newsz = s.free + 1 then
    some ⟨newsz, s.mapped + (pages newsz - pages s.sz) - 1, 0⟩
  else none

end Loading

namespace Vm

def tableAt (mapped va : Nat) : Prop := kernelTable (va / 2 ^ 22) ∨ va / 2 ^ 22 * 1024 < mapped

def inside (ph : Proghdr) (mapped : Nat) : Nat := mapped * pgsize - ph.vaddr

def SegmentFits (file : List UInt8) (ph : Proghdr) (mapped : Nat) : Prop :=
  ph.vaddr % pgsize = 0 ∧ (ph.filesz ≤ inside ph mapped ∨
    0 < inside ph mapped ∧ file.length < ph.off + inside ph mapped ∨
    tableAt mapped (ph.vaddr + inside ph mapped) ∧
      (file.length ≤ ph.off + inside ph mapped ∨
        2 ^ 32 ≤ ph.off + inside ph mapped + min (ph.filesz - inside ph mapped) pgsize))

def SegmentLoads (file : List UInt8) (ph : Proghdr) (mapped : Nat) : Prop :=
  ph.filesz ≤ inside ph mapped ∧ (ph.filesz = 0 ∨ ph.off + ph.filesz ≤ file.length)

def SegmentsFit (file : List UInt8) (grows : Loading → Nat → Prop) (rest : Loading → Prop) :
    Nat → Nat → Loading → Prop
  | 0, _, s => rest s
  | k + 1, off, s =>
    match readProghdr file off with
    | none => True
    | some ph =>
      if ph.type ≠ elfProgLoad then SegmentsFit file grows rest k (uint (off + 32)) s
      else if ph.memsz < ph.filesz ∨ kernbase ≤ uint (ph.vaddr + ph.memsz) then True
      else grows s (uint (ph.vaddr + ph.memsz)) ∧
        ∀ s' ∈ s.grow (uint (ph.vaddr + ph.memsz)), s'.sz ≠ 0 →
          SegmentFits file ph s'.mapped ∧
            (SegmentLoads file ph s'.mapped →
              SegmentsFit file grows rest k (uint (off + 32)) s')

def ArgsFit (mapped top : Nat) : List (List UInt8) → Nat → Nat → Prop
  | [], _, _ => mapped = pages top
  | arg :: argv, argc, sp =>
    maxarg ≤ argc ∨ tableAt mapped (pushString sp arg.length) ∧
      (top - pgsize ≤ pushString sp arg.length → pushString sp arg.length < top →
        ArgsFit mapped top argv (argc + 1) (pushString sp arg.length))

def StackFits (grows : Loading → Nat → Prop) (argv : List (List UInt8)) (s : Loading) : Prop :=
  let bottom : Loading := { s with sz := pages s.sz * pgsize }
  let top := (pages s.sz + 2) * pgsize
  kernbase ≤ top ∨ grows bottom top ∧ ∀ s' ∈ bottom.grow top, ArgsFit s'.mapped top argv 0 top

end Vm

def ExecFits (grows : Loading → Nat → Prop) (free : Nat) (file : Option (List UInt8))
    (argv : List (List UInt8)) : Prop :=
  ∀ f elf, file = some f → readElfhdr f = some elf → 65 ≤ free →
    Vm.SegmentsFit f grows (Vm.StackFits grows argv) elf.phnum elf.phoff ⟨0, 0, free - 65⟩

-- setupkvm gets all its pages or none.
def SetupFits (free : Nat) (file : Option (List UInt8)) : Prop :=
  ∀ f ∈ file, readElfhdr f ≠ none → free = 0 ∨ 65 ≤ free

namespace Vm

variable {L : Layout} {vm vm' vm'' vm₀ : Vm} {role role' role₀ role₁ : Nat → Role} {d v : Nat}
  {s : Loading}

theorem word_lt (bs : List UInt8) (i size : Nat) : word bs i size < 256 ^ size := by
  unfold word
  have hlen : ((bs.drop i).take size).length ≤ size := List.length_take_le _ _
  generalize (bs.drop i).take size = l at hlen
  induction l generalizing size with
  | nil => exact Nat.pow_pos (by decide)
  | cons b l ih =>
    obtain ⟨m, rfl⟩ : ∃ m, size = m + 1 := ⟨size - 1, by simp only [List.length_cons] at hlen; omega⟩
    have hrest := ih m (by simpa using hlen)
    have hb := b.toNat_lt
    rw [List.foldr_cons, Nat.pow_succ]
    omega

theorem SegmentsFit.mono {file : List UInt8} {grows grows' : Loading → Nat → Prop}
    {rest rest' : Loading → Prop} (hgrows : ∀ s newsz, grows s newsz → grows' s newsz)
    (hrest : ∀ s, rest s → rest' s) {k off : Nat} {s : Loading}
    (h : SegmentsFit file grows rest k off s) : SegmentsFit file grows' rest' k off s := by
  induction k generalizing off s with
  | zero => exact hrest s h
  | succ k ih =>
    rw [SegmentsFit] at h ⊢
    split
    · trivial
    · rename_i ph hph
      simp only [hph] at h
      split_ifs at h ⊢ with htype hbad
      · exact ih h
      · exact ⟨hgrows _ _ h.1, fun s' hs' hsz =>
          (h.2 s' hs' hsz).imp_right fun hnext hl => ih (hnext hl)⟩

structure Bounded (ph : Proghdr) : Prop where
  off : ph.off < 2 ^ 32
  vaddr : ph.vaddr < 2 ^ 32
  filesz : ph.filesz < 2 ^ 32
  memsz : ph.memsz < 2 ^ 32

theorem readProghdr_bounded {file : List UInt8} {off : Nat} {ph : Proghdr}
    (h : readProghdr file off = some ph) : Bounded ph := by
  unfold readProghdr at h
  split at h
  · split at h
    · cases h
    · cases h
      exact ⟨word_lt _ _ 4, word_lt _ _ 4, word_lt _ _ 4, word_lt _ _ 4⟩
  · cases h

theorem demand_congr {f g : Nat → Bool} {k : Nat} (hv : v + k ≤ 2 ^ 19)
    (hfg : ∀ i < 512, f i = g i) : demand f v k = demand g v k := by
  induction k generalizing f g v with
  | zero => rfl
  | succ k ih =>
    rw [demand, demand, hfg (v / 1024) (by omega)]
    congr 1
    refine ih (by omega) fun i hi => ?_
    rw [Function.update_apply, Function.update_apply, hfg i hi]

structure SameTables (vm vm' : Vm) : Prop where
  tables : vm'.tables = vm.tables
  freelist : vm'.freelist = vm.freelist

theorem SameTables.refl (vm : Vm) : SameTables vm vm := ⟨rfl, rfl⟩

theorem SameTables.trans (h : SameTables vm vm') (h' : SameTables vm' vm'') : SameTables vm vm'' :=
  ⟨h'.tables.trans h.tables, h'.freelist.trans h.freelist⟩

theorem store_same (vm : Vm) (page off : Nat) (bs : List UInt8) :
    SameTables vm (vm.store page off bs) := ⟨rfl, rfl⟩

theorem SameTables.page (h : SameTables vm vm') (d v : Nat) : vm'.page d v = vm.page d v := by
  unfold Vm.page
  rw [h.tables]

theorem SameTables.present (h : SameTables vm vm') (d : Nat) : vm'.present d = vm.present d := by
  funext i
  unfold Vm.present
  rw [h.tables]

theorem SameTables.exact (h : SameTables vm vm') (he : Exact L vm role) : Exact L vm' role := by
  refine ⟨⟨?_, ?_, ?_⟩, fun q d v hq => ?_⟩
  · rw [h.tables]
    exact he.ok.owned
  · rw [h.freelist]
    exact he.ok.free
  · rw [h.freelist]
    exact he.ok.nodup
  · obtain ⟨hd, hv, perm, hpage⟩ := he.tight q d v hq
    exact ⟨hd, hv, perm, (h.page d v).trans hpage⟩

theorem SameTables.acts (h : SameTables vm' vm'') (ha : Acts L d vm vm' role role') :
    Acts L d vm vm'' role role' := by
  refine ⟨h.exact ha.exact, ha.moves, fun q hq hdir => ?_⟩
  obtain ⟨hpres, hpage⟩ := ha.dirs q hq hdir
  exact ⟨(h.present q).trans hpres, fun v => (h.page q v).trans (hpage v)⟩

theorem walk_present (hv : v < 2 ^ 20) (h : vm.present d (v / 1024) = true) :
    ∃ pt, vm.walkpgdir d (v * pgsize) false = (vm, some (pt, v % 1024)) ∧
      vm.tables.dir d (v / 1024) = some pt ∧ vm.page d v = vm.tables.leaf pt (v % 1024) := by
  obtain ⟨pt, hdir⟩ := Option.isSome_iff_exists.mp h
  refine ⟨pt, ?_, hdir, ?_⟩
  · unfold walkpgdir
    rw [pdx_page hv, ptx_page, hdir]
  · unfold Vm.page TwoLevel.get
    rw [hdir, Option.bind_some]

theorem walk_absent (hv : v < 2 ^ 20) (h : vm.present d (v / 1024) = false) :
    vm.walkpgdir d (v * pgsize) false = (vm, none) := by
  have hdir : vm.tables.dir d (v / 1024) = none := by
    unfold Vm.present at h
    rwa [Option.isSome_eq_false_iff, Option.isNone_iff_eq_none] at h
  unfold walkpgdir
  rw [pdx_page hv, hdir]
  rfl

def Loses (role role' : Nat → Role) : Prop :=
  ∀ q, role' q = role q ∨ role q = .free ∧ role' q = .held

theorem Loses.refl (role : Nat → Role) : Loses role role := fun _ => .inl rfl

theorem Loses.trans {role'' : Nat → Role} (h : Loses role role') (h' : Loses role' role'') :
    Loses role role'' := by
  intro q
  rcases h' q with hq | ⟨hq, hq'⟩
  · rw [hq]
    exact h q
  · rcases h q with hp | ⟨_, hp⟩
    · exact .inr ⟨hp ▸ hq, hq'⟩
    · rw [hp] at hq
      cases hq

theorem Loses.update {p : Nat} (h : role p = .free) :
    Loses role (Function.update role p .held) := by
  intro q
  by_cases hq : q = p
  · subst hq
    exact .inr ⟨h, Function.update_self ..⟩
  · exact .inl (Function.update_of_ne hq _ _)

theorem Loses.dir {q : Nat} (h : Loses role role') (hq : role q = .dir) : role' q = .dir := by
  rcases h q with hp | ⟨hp, _⟩
  · rw [hp, hq]
  · rw [hq] at hp
    cases hp

def Fresh (d : Nat) (vm : Vm) (role : Nat → Role) : Prop :=
  ∀ q, Belongs d (role q) → role q = .free ∧ q ∈ vm.freelist

theorem Exact.freshDir (h : Exact L vm role) (hd : role d = .free) : Fresh d vm role :=
  fun q hq => ⟨h.fresh hd hq, (h.ok.free q).mpr (h.fresh hd hq)⟩

theorem Fresh.loses (h : Fresh d vm role) (hl : Loses role role') : Fresh d vm role' := by
  intro q hq
  rcases hl q with hp | ⟨_, hp⟩
  · rw [hp] at hq ⊢
    exact h q hq
  · rw [hp] at hq
    exact absurd hq not_belongs_held

structure Space (L : Layout) (d : Nat) (s : Loading) (vm₀ vm : Vm) (role₀ role : Nat → Role) :
    Prop where
  free : role₀ d = .free
  acts : Acts L d vm₀ vm (Function.update role₀ d .dir) role
  stacked : Stacked vm d
  small : s.sz < kernbase
  mapped : ∀ w < s.mapped, ∃ q, vm.page d w = some ⟨q, true, true⟩
  above : ∀ w < 2 ^ 19, s.mapped ≤ w → vm.page d w = none
  kernel : ∀ w e, 2 ^ 19 ≤ w → vm.page d w = some e → e.perm.u = false
  present : ∀ i, vm.present d i = true ↔ kernelTable i ∨ i * 1024 < s.mapped
  length : vm.freelist.length = s.free
  whole : s.mapped = pages s.sz ∨ s.free = 0 ∧ s.mapped + 1 = pages s.sz ∧ s.mapped % 1024 = 0

theorem Space.dir (h : Space L d s vm₀ vm role₀ role) : role d = .dir :=
  h.acts.dir (Function.update_self ..)

theorem Space.mapped_le (h : Space L d s vm₀ vm role₀ role) : s.mapped ≤ 2 ^ 19 := by
  have := pages_le h.small.le
  rcases h.whole with hw | ⟨_, hw, _⟩
  · omega
  · omega

theorem Space.same (h : Space L d s vm₀ vm role₀ role) (hs : SameTables vm vm') :
    Space L d s vm₀ vm' role₀ role := by
  refine ⟨h.free, hs.acts h.acts, h.stacked.congr (hs.present d), h.small, ?_, ?_, ?_, ?_, ?_,
    h.whole⟩
  · intro w hw
    rw [hs.page]
    exact h.mapped w hw
  · intro w hw hle
    rw [hs.page, h.above w hw hle]
  · intro w e hw he
    rw [hs.page] at he
    exact h.kernel w e hw he
  · intro i
    rw [hs.present]
    exact h.present i
  · rw [hs.freelist, h.length]

theorem Space.tables (h : Space L d s vm₀ vm role₀ role) : ∀ i < 512, s.tables i = vm.present d i := by
  intro i hi
  rw [Loading.tables, Bool.eq_iff_iff, decide_eq_true_iff, h.present]
  unfold kernelTable
  omega

theorem Space.present_at {va : Nat} (h : Space L d s vm₀ vm role₀ role) :
    vm.present d (va / pgsize / 1024) = true ↔ tableAt s.mapped va := by
  rw [h.present, tableAt, Nat.div_div_eq_div_mul]
  rfl

theorem NewSpace.space (h : NewSpace L d vm₀ vm role₀ role) :
    Space L d ⟨0, 0, vm₀.freelist.length - 65⟩ vm₀ vm role₀ role := by
  have hlen := h.length
  refine ⟨h.free, h.acts, h.spans.stacked, show 0 < kernbase by decide, ?_, ?_,
    fun w e _ he => h.user w e he, ?_, ?_, .inl (show 0 = pages 0 by simp [pages])⟩
  · intro w hw
    exact absurd hw (Nat.not_lt_zero w)
  · intro w hw _
    exact h.spans.above w hw (by simp [pages])
  · intro i
    rw [h.present, decide_eq_true_iff]
    simp
  · change vm.freelist.length = vm₀.freelist.length - 65
    omega

theorem Space.spans (h : Space L d s vm₀ vm role₀ role) (hw : s.mapped = pages s.sz) :
    Spans vm d s.sz := by
  refine ⟨h.stacked, ?_, fun w hlt hle => h.above w hlt (by omega)⟩
  rcases Nat.eq_zero_or_pos (pages s.sz) with hzero | hpos
  · exact .inl hzero
  · exact .inr ((h.present _).mpr (.inr (by omega)))

theorem Extends.mapped {newsz k : Nat} (h : Space L d s vm₀ vm role₀ role)
    (hw : s.mapped = pages s.sz) (hk : s.mapped + k ≤ pages newsz)
    (he : Extends L d (pages s.sz) k vm vm' role role') (hnew : newsz < kernbase) :
    (∀ w < s.mapped + k, ∃ q, vm'.page d w = some ⟨q, true, true⟩) ∧
      (∀ w < 2 ^ 19, s.mapped + k ≤ w → vm'.page d w = none) ∧
      (∀ w e, 2 ^ 19 ≤ w → vm'.page d w = some e → e.perm.u = false) ∧
      ∀ i, vm'.present d i = true ↔ kernelTable i ∨ i * 1024 < s.mapped + k := by
  have hbound := pages_le hnew.le
  refine ⟨fun w hlt => ?_, fun w hlt hle => ?_, fun w e hlt hpage => ?_, fun i => ?_⟩
  · by_cases hlow : w < s.mapped
    · rw [(he.page w).2 (by omega)]
      exact h.mapped w hlow
    · exact (he.page w).1 (by omega)
  · rw [(he.page w).2 (by omega), h.above w hlt (by omega)]
  · rw [(he.page w).2 (by omega)] at hpage
    exact h.kernel w e hlt hpage
  · rw [he.present, h.present, or_assoc]
    refine or_congr_right ⟨?_, fun hi => ?_⟩
    · rintro (hi | ⟨w, _, hw', rfl⟩)
      · omega
      · omega
    · by_cases hlow : i * 1024 < s.mapped
      · exact .inl hlow
      · exact .inr ⟨i * 1024, by omega, by omega, by omega⟩

structure Discardable (L : Layout) (d : Nat) (vm₀ vm : Vm) (role₀ role : Nat → Role) : Prop where
  free : role₀ d = .free
  acts : Acts L d vm₀ vm (Function.update role₀ d .dir) role
  stacked : Stacked vm d

theorem Space.discardable (h : Space L d s vm₀ vm role₀ role) :
    Discardable L d vm₀ vm role₀ role := ⟨h.free, h.acts, h.stacked⟩

theorem Acts.lose {p : Nat} (h : Acts L d vm vm' role role') (ht : Took L vm' vm'' role' p) :
    Acts L d vm vm'' (Function.update role p .held) (Function.update role' p .held) := by
  refine ⟨ht.exact h.exact, fun q => ?_, fun q hq hdir => ?_⟩
  · by_cases hqp : q = p
    · subst hqp
      rw [Function.update_self, Function.update_self]
      exact .inl rfl
    · rw [Function.update_of_ne hqp, Function.update_of_ne hqp]
      exact h.moves q
  · have hqp : q ≠ p := by
      rintro rfl
      simp at hdir
    rw [Function.update_of_ne hqp] at hdir
    obtain ⟨hpres, hpage⟩ := h.dirs q hq hdir
    have hdir' := h.dir hdir
    exact ⟨(ht.present q hdir').trans hpres, fun w => (ht.page q hdir' w).trans (hpage w)⟩

theorem Starved.lose {m p : Nat} {vm₁ vm₂ : Vm} (h : Space L d s vm₀ vm role₀ role)
    (hs : Starved L d v m p vm vm₁ vm₂ role role') (hf : Fresh d vm₀ role₀) :
    Loses role₀ (Function.update role₀ p .held) ∧ Function.update role₀ p .held d = .free ∧
      Acts L d vm₀ vm₂ (Function.update (Function.update role₀ p .held) d .dir)
        (Function.update role' p .held) := by
  have hacts := h.acts.trans hs.mapped.acts
  have hpd : p ≠ d := by
    rintro rfl
    have := hs.mapped.acts.dir h.dir
    simp [hs.took.free] at this
  have hfree : role₀ p = .free := by
    have hp := hacts.moves p
    rw [Function.update_of_ne hpd, hs.took.free] at hp
    rcases hp with hp | ⟨hp, _⟩
    · exact hp.symm
    · exact (hf p hp).1
  refine ⟨.update hfree, ?_, ?_⟩
  · rw [Function.update_of_ne hpd.symm, h.free]
  · rw [Function.update_comm hpd]
    exact hacts.lose hs.took

end Vm
end Xv6
