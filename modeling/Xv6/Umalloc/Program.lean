import Xv6.Lib.GuardedRun
import Xv6.Umalloc.Allocator

namespace Xv6.Umalloc

open LinkedPath Tiling

structure Program where
  heap : Heap
  live : List (Nat × Nat)

inductive Call where
  | malloc (nbytes : Nat) (sbrk : Sbrk)
  | free (ap : Nat)
  | store (mem : Nat → Header)

def Heap.block (h : Heap) (a : Nat) : Piece := ⟨a, a + unit * h.size a⟩

namespace Program

def blocks (s : Program) : List Piece := s.live.map fun x => s.heap.block x.2

def step (base fuel : Nat) (s : Program) : Call → Option Program
  | .malloc nbytes sbrk => do
    let (heap, r) ← s.heap.malloc base sbrk fuel nbytes
    if r = 0 then some { s with heap } else some ⟨heap, (nbytes, r - unit) :: s.live⟩
  | .free ap => do
    let heap ← s.heap.free fuel ap
    some ⟨heap, s.live.eraseP fun x => x.2 + unit = ap⟩
  | .store mem => some { s with heap := { s.heap with mem } }

def Legal (s : Program) : Call → Prop
  | .malloc nbytes _ => nbytes < 2 ^ 30
  | .free ap => ∃ x ∈ s.live, x.2 + unit = ap
  | .store mem =>
    ∀ a, (∀ p ∈ s.blocks, ¬ (p.start < a ∧ a < p.stop)) → mem a = s.heap.mem a

def start (mem : Nat → Header) (brk : Nat) : Program := ⟨⟨mem, 0, brk, [], []⟩, []⟩

def SoundList (base : Nat) (s : Program) (free : List Piece) : Prop :=
  Sound base s.heap free s.blocks ∧ ∀ x ∈ s.live, x.1 + unit ≤ unit * s.heap.size x.2

variable {base k : Nat} {s : Program} {free : List Piece}

theorem blocks_congr {h : Heap} {live : List (Nat × Nat)}
    (hk : ∀ x ∈ live, h.mem x.2 = s.heap.mem x.2) :
    (live.map fun x => h.block x.2) = live.map fun x => s.heap.block x.2 := by
  refine List.map_congr_left fun x hx => ?_
  rw [Heap.block, Heap.size, hk x hx]
  rfl

theorem keeps_live {h : Heap} (hk : Keeps s.blocks s.heap h) :
    ∀ x ∈ s.live, h.mem x.2 = s.heap.mem x.2 := fun x hx =>
  hk (s.heap.block x.2) (List.mem_map_of_mem (f := fun x => s.heap.block x.2) hx)

theorem nunits_eq {n : Nat} (hn : n < 2 ^ 30) :
    uint (uint (n + unit - 1) / unit + 1) = (n + 7) / 8 + 1 := by
  unfold uint unit
  omega

theorem malloc_step {n : Nat} (hs : SoundList base s free) (hn : n < 2 ^ 30) (sbrk : Sbrk)
    (hf : 2 * free.length + 4 ≤ k) :
    ∃ t free', s.step base k (.malloc n sbrk) = some t ∧ SoundList base t free' ∧
      free'.length ≤ free.length + 1 := by
  obtain ⟨hsound, hroom⟩ := hs
  have hfreep : s.heap.freep ≠ 0 := by
    have hbase := hsound.start.1
    rcases List.mem_cons.mp hsound.list.freep with he | hmem
    · omega
    · have := (List.pairwise_cons.mp hsound.list.sorted).1 _ hmem
      omega
  obtain ⟨h', r, hcall, -, hkeep, free', hle, hr⟩ := hsound.mallocLoop sbrk
    (u := (n + 7) / 8 + 1) (by omega) (by omega) hf
  have hmalloc : s.heap.malloc base sbrk k n = some (h', r) := by
    simp only [Heap.malloc, nunits_eq hn, if_neg hfreep, hcall]
  have hlive := keeps_live hkeep
  have hroom' : ∀ x ∈ s.live, x.1 + unit ≤ unit * h'.size x.2 := by
    intro x hx
    rw [Heap.size, hlive x hx]
    exact hroom x hx
  rcases hr with ⟨rfl, hs'⟩ | ⟨q, rfl, hs', hstop, hsize⟩
  · refine ⟨{ s with heap := h' }, free', ?_, ⟨?_, hroom'⟩, hle⟩
    · simp [step, hmalloc]
    · rw [blocks, blocks_congr hlive]
      exact hs'
  · refine ⟨⟨h', (n, q.start) :: s.live⟩, free', ?_, ⟨?_, ?_⟩, hle⟩
    · simp [step, hmalloc]
    · rw [blocks, List.map_cons, blocks_congr hlive, Heap.block, hsize, hstop]
      exact hs'
    · intro x hx
      rcases List.mem_cons.mp hx with rfl | hx
      · rw [hsize]
        unfold unit
        omega
      · exact hroom' x hx

theorem free_step {ap : Nat} (hs : SoundList base s free)
    (hlegal : ∃ x ∈ s.live, x.2 + unit = ap) (hf : 2 * free.length + 4 ≤ k) :
    ∃ t free', s.step base k (.free ap) = some t ∧ SoundList base t free' ∧
      free'.length ≤ free.length + 1 := by
  obtain ⟨hsound, hroom⟩ := hs
  obtain ⟨x₀, hx₀, hap⟩ := hlegal
  obtain ⟨x, l₁, l₂, -, hx, hlive, herase⟩ := List.exists_of_eraseP
    (p := fun x : Nat × Nat => x.2 + unit = ap) hx₀ (by simpa using hap)
  obtain rfl : x.2 + unit = ap := by simpa using hx
  obtain ⟨p, hp⟩ : ∃ p, p = s.heap.block x.2 := ⟨_, rfl⟩
  have hpstart : p.start = x.2 := by
    rw [hp]
    rfl
  obtain ⟨rest, hrest⟩ : ∃ rest, rest = (l₁ ++ l₂).map fun x => s.heap.block x.2 := ⟨_, rfl⟩
  have hblocks : s.blocks.Perm (p :: rest) := by
    rw [blocks, hlive, hrest, hp, List.map_append, List.map_cons, List.map_append]
    exact List.perm_middle
  have hsound' : Sound base s.heap free (p :: rest) :=
    hsound.of_same hsound.list hsound.spaced (hsound.tiles.perm (hblocks.append_left free))
      ⟨rfl, rfl⟩
  have hpsize : p.start + unit * s.heap.size p.start = p.stop := by
    rw [hp]
    rfl
  obtain ⟨h', free', hcall, hs', hframe, hle, -⟩ := hsound'.release hpsize (k := k) (by omega)
  have hpmem : p ∈ free ++ p :: rest := by simp
  have hap : past p.start 1 = x.2 + unit := by
    have hproper := hsound'.tiles.proper p hpmem
    have hbound := (hsound'.bounds hpmem).2.trans_lt hsound'.brk
    rw [hpstart]
    refine past_eq (Nat.mul_one unit ▸ rfl) ?_
    rw [← hpsize] at hproper hbound
    unfold unit at *
    omega
  have hkeep : ∀ y ∈ l₁ ++ l₂, h'.mem y.2 = s.heap.mem y.2 := by
    intro y hy
    obtain ⟨q, hq⟩ : ∃ q, q = s.heap.block y.2 := ⟨_, rfl⟩
    have hqmem : q ∈ rest := by
      rw [hrest, hq]
      exact List.mem_map_of_mem (f := fun x => s.heap.block x.2) hy
    have hne : q.start ≠ p.start :=
      apart_start_ne (tiles_apart hsound'.tiles (List.mem_append_right free hqmem))
        (hsound'.tiles.proper p hpmem) (hsound'.tiles.proper q (by simp [hqmem]))
    have hnode := hsound'.live_not_start (List.mem_cons_of_mem p hqmem)
    have hother := hframe.other q.start hne hnode
    rw [hq] at hother
    exact hother
  refine ⟨⟨h', l₁ ++ l₂⟩, free', ?_, ⟨?_, fun y hy => ?_⟩, hle⟩
  · rw [hap] at hcall
    rw [step, hcall, ← herase]
    rfl
  · rw [blocks, blocks_congr hkeep, ← hrest]
    exact hs'
  · rw [Heap.size, hkeep y hy]
    refine hroom y ?_
    rw [hlive]
    rcases List.mem_append.mp hy with hy | hy
    · exact List.mem_append_left _ hy
    · exact List.mem_append_right _ (List.mem_cons_of_mem _ hy)

theorem store_step {mem : Nat → Header} (hs : SoundList base s free)
    (hlegal : s.Legal (.store mem)) :
    ∃ t free', s.step base k (.store mem) = some t ∧ SoundList base t free' ∧
      free'.length ≤ free.length + 1 := by
  obtain ⟨hsound, hroom⟩ := hs
  have hkept : ∀ p ∈ free ++ s.blocks, mem p.start = s.heap.mem p.start := by
    intro p hp
    refine hlegal p.start fun q hq hin => ?_
    have hproper := hsound.tiles.proper p hp
    have hpq : p = q := hsound.tiles.eq_of_mem hp (List.mem_append_right free hq)
      ⟨le_rfl, hproper⟩ ⟨hin.1.le, hin.2⟩
    rw [hpq] at hin
    omega
  have hbase : mem base = s.heap.mem base := by
    refine hlegal base fun q hq hin => ?_
    have := (hsound.bounds (List.mem_append_right free hq)).1
    unfold unit at this
    omega
  have hlive : ∀ x ∈ s.live, mem x.2 = s.heap.mem x.2 := fun x hx =>
    hkept (s.heap.block x.2) (List.mem_append_right free
      (List.mem_map_of_mem (f := fun x => s.heap.block x.2) hx))
  refine ⟨{ s with heap := { s.heap with mem } }, free, rfl, ⟨?_, fun x hx => ?_⟩, Nat.le_succ _⟩
  · rw [blocks, blocks_congr hlive]
    refine hsound.of_same (hsound.list.congr (fun x hx => ?_) rfl) hsound.spaced hsound.tiles
      ⟨rfl, rfl⟩
    rcases List.mem_cons.mp hx with rfl | hx
    · exact hbase
    · obtain ⟨p, hp, rfl⟩ := List.mem_map.mp hx
      exact hkept p (List.mem_append_left _ hp)
  · change x.1 + unit ≤ unit * (mem x.2).size
    rw [hlive x hx]
    exact hroom x hx

theorem sound_step {e : Call} (hs : SoundList base s free) (hlegal : s.Legal e)
    (hf : 2 * free.length + 4 ≤ k) :
    ∃ t free', s.step base k e = some t ∧ SoundList base t free' ∧
      free'.length ≤ free.length + 1 := by
  cases e with
  | malloc n sbrk => exact malloc_step hs hlegal sbrk hf
  | free ap => exact free_step hs hlegal hf
  | store mem => exact store_step hs hlegal

theorem sound_run {es : List Call} (hs : SoundList base s free)
    (hlegal : GuardedRun.along (step base k) Legal s es)
    (hf : 2 * (free.length + es.length) + 2 ≤ k) :
    ∃ t free', GuardedRun.run (step base k) s es = some t ∧ SoundList base t free' := by
  induction es generalizing s free with
  | nil => exact ⟨s, free, rfl, hs⟩
  | cons e es ih =>
    rw [List.length_cons] at hf
    obtain ⟨t, free', hstep, hs', hle⟩ := sound_step hs hlegal.1 (k := k) (by omega)
    obtain ⟨v, free'', hrun, hv⟩ := ih hs' (hlegal.2 t hstep) (by omega)
    exact ⟨v, free'', (GuardedRun.run_cons _).mpr ⟨t, hstep, hrun⟩, hv⟩

def opened (base : Nat) (mem : Nat → Header) (brk : Nat) : Program :=
  ⟨⟨Function.update mem base ⟨base, 0⟩, base, brk, [], []⟩, []⟩

theorem opened_sound {brk : Nat} (mem : Nat → Header) (hbase : 0 < base)
    (hbrk : base + unit ≤ brk) (hbrk' : brk < 2 ^ 32) :
    SoundList base (opened base mem brk) [] := by
  have hmem : (opened base mem brk).heap.mem base = ⟨base, 0⟩ := Function.update_self _ _ _
  have hempty : (opened base mem brk).heap.memory = ∅ := by
    ext x
    simp [Heap.memory, opened]
  refine ⟨⟨⟨congrArg Header.ptr hmem, ?_, ?_, congrArg Header.size hmem, ?_, ?_⟩, .nil, ?_, ?_,
    ⟨hbase, hbrk⟩, hbrk'⟩, ?_⟩
  · exact List.pairwise_singleton _ _
  · exact fun p hp => absurd hp List.not_mem_nil
  · exact List.mem_singleton.mpr rfl
  · exact fun p hp => absurd hp List.not_mem_nil
  · rw [hempty]
    exact tiles_nil
  · rw [hempty]
    exact fun x hx => absurd hx (Set.notMem_empty x)
  · exact fun x hx => absurd hx List.not_mem_nil

theorem step_start {brk n : Nat} (mem : Nat → Header) (sbrk : Sbrk) (hbase : 0 < base) :
    (start mem brk).step base k (.malloc n sbrk) =
      (opened base mem brk).step base k (.malloc n sbrk) := by
  have hne : base ≠ 0 := Nat.ne_of_gt hbase
  simp [step, Heap.malloc, start, opened, hne, Heap.setHeader]

theorem store_start {brk : Nat} {mem mem' : Nat → Header}
    (hlegal : (start mem brk).Legal (.store mem')) :
    (start mem brk).step base k (.store mem') = some (start mem brk) := by
  have hmem : mem' = mem := funext fun a => hlegal a fun p hp => absurd hp List.not_mem_nil
  rw [step, hmem]
  rfl

theorem umalloc_sound {brk : Nat} (mem : Nat → Header) (es : List Call) (hbase : 0 < base)
    (hbrk : base + unit ≤ brk) (hbrk' : brk < 2 ^ 32) (hf : 2 * es.length + 2 ≤ k)
    (hlegal : GuardedRun.along (step base k) Legal (start mem brk) es) :
    ∃ t, GuardedRun.run (step base k) (start mem brk) es = some t ∧
      ((t = start mem brk ∧ ∀ e ∈ es, ∃ mem', e = .store mem') ∨
        ∃ free, SoundList base t free) := by
  induction es with
  | nil => exact ⟨_, rfl, .inl ⟨rfl, fun e he => absurd he List.not_mem_nil⟩⟩
  | cons e es ih =>
    rw [List.length_cons] at hf
    cases e with
    | malloc n sbrk =>
      have hopen := opened_sound mem hbase hbrk hbrk'
      obtain ⟨t, free, hstep, hs, hle⟩ := malloc_step hopen hlegal.1 sbrk (k := k)
        (by simp only [List.length_nil]; omega)
      rw [← step_start mem sbrk hbase] at hstep
      simp only [List.length_nil] at hle
      obtain ⟨v, free', hrun, hv⟩ := sound_run hs (hlegal.2 t hstep) (by omega)
      exact ⟨v, (GuardedRun.run_cons _).mpr ⟨t, hstep, hrun⟩, .inr ⟨free', hv⟩⟩
    | free ap =>
      obtain ⟨x, hx, -⟩ := hlegal.1
      exact absurd hx List.not_mem_nil
    | store mem' =>
      have hstep : (start mem brk).step base k (.store mem') = some (start mem brk) :=
        store_start hlegal.1
      obtain ⟨t, hrun, ht⟩ := ih (by omega) (hlegal.2 _ hstep)
      refine ⟨t, (GuardedRun.run_cons _).mpr ⟨_, hstep, hrun⟩, ht.imp_left fun h => ⟨h.1, ?_⟩⟩
      intro e he
      rcases List.mem_cons.mp he with rfl | he
      · exact ⟨mem', rfl⟩
      · exact h.2 e he

def nextPage : Sbrk where
  run brk n := if brk + n < 2 ^ 32 then some brk else none
  fresh brk n a h := by
    split_ifs at h with hlt
    cases h
    exact ⟨le_rfl, hlt⟩

def shortRun : List Call := [.malloc 100 nextPage, .malloc 20 nextPage, .free 0xaf98]

theorem umalloc_sound_shortRun :
    ∃ t, GuardedRun.run (step 0x1000 20) (start (fun _ => ⟨0, 0⟩) 0x3000) shortRun = some t ∧
      ((t = start (fun _ => ⟨0, 0⟩) 0x3000 ∧ ∀ e ∈ shortRun, ∃ mem', e = .store mem') ∨
        ∃ free, SoundList 0x1000 t free) := by
  refine umalloc_sound _ shortRun (by decide) (by decide) (by decide) (by decide) ?_
  have hlive : ((GuardedRun.run (step 0x1000 20) (start (fun _ => ⟨0, 0⟩) 0x3000)
      (shortRun.take 2)).map live) = some [(20, 0xaf70), (100, 0xaf90)] := by
    decide +kernel
  have hsmall : 100 < 2 ^ 30 ∧ 20 < 2 ^ 30 := by decide
  refine ⟨hsmall.1, fun s hs => ⟨hsmall.2, fun t ht => ⟨?_, fun _ _ => trivial⟩⟩⟩
  have hrun : GuardedRun.run (step 0x1000 20) (start (fun _ => ⟨0, 0⟩) 0x3000)
      (shortRun.take 2) = some t :=
    (GuardedRun.run_cons _).mpr ⟨s, hs, (GuardedRun.run_cons _).mpr ⟨t, ht, rfl⟩⟩
  rw [hrun, Option.map_some, Option.some.injEq] at hlive
  exact ⟨(100, 0xaf90), hlive ▸ by simp, rfl⟩

end Program

end Xv6.Umalloc
