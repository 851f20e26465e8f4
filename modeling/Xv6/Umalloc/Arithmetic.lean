import Xv6.Proc.Table
import Xv6.Umalloc.Program

namespace Xv6.Umalloc

open LinkedPath Tiling

def Heap.opened (base : Nat) (h : Heap) : Heap :=
  if h.freep = 0 then { h.setHeader base ⟨base, 0⟩ with freep := base } else h

def nunits (nbytes : Nat) : Nat := uint (uint (nbytes + unit - 1) / unit + 1)

structure Arithmetic (base : Nat) (sbrk : Sbrk) (fuel : Nat) (h : Heap) (nbytes : Nat) : Prop where
  block : ∃ h' r, h.malloc base sbrk fuel nbytes = some (h', r) ∧
    (r = 0 ∨ nbytes + unit ≤ unit * h'.size (r - unit) ∧
      ∀ x, r - unit ≤ x → x < r - unit + unit * h'.size (r - unit) → x ∈ h'.memory)
  asks : ∀ h' r, h.malloc base sbrk fuel nbytes = some (h', r) →
    ∀ c ∈ h'.asked.drop h.asked.length, 0 < int32 c.1 ∧ ((c.2 * unit : Nat) : Int) ≤ int32 c.1

variable {base k u : Nat} {h h' : Heap} {free live : List Piece}

theorem malloc_eq (sbrk : Sbrk) (k : Nat) (h : Heap) (nbytes : Nat) :
    h.malloc base sbrk k nbytes =
      (h.opened base).mallocLoop sbrk (nunits nbytes) k (h.opened base).freep
        ((h.opened base).ptr (h.opened base).freep) := rfl

theorem opened_brk (h : Heap) : (h.opened base).brk = h.brk := by
  unfold Heap.opened
  split <;> rfl

theorem opened_asked (h : Heap) : (h.opened base).asked = h.asked := by
  unfold Heap.opened
  split <;> rfl

def request (u : Nat) : Nat × Nat := (uint (coreUnits u * unit), coreUnits u)

theorem join_asked (p bp : Nat) : ((h.joinNext p bp).joinPrev p bp).asked = h.asked := by
  simp only [Heap.joinPrev, Heap.joinNext]
  split <;> split <;> rfl

theorem free_asked {p : Nat} (hf : h.free k p = some h') : h'.asked = h.asked := by
  -- the address is named first: unfolded, the kernel would count up to it
  obtain ⟨bp, hbp⟩ : ∃ bp, bp = uint (p + 2 ^ 32 - unit) := ⟨_, rfl⟩
  rw [Heap.free, ← hbp] at hf
  obtain ⟨q, -, hq⟩ := Option.bind_eq_some_iff.mp hf
  rw [← Option.some.inj hq]
  exact join_asked q bp

theorem carve_asked (u prevp p : Nat) : (h.carve u prevp p).1.asked = h.asked := by
  unfold Heap.carve
  split <;> rfl

theorem morecore_asked {sbrk : Sbrk} {p : Nat} (hm : h.morecore sbrk k u = some (h', p)) :
    h'.asked = h.asked ++ [request u] := by
  obtain ⟨nu, hnu⟩ : ∃ nu, nu = if u < 4096 then 4096 else u := ⟨_, rfl⟩
  rw [request, coreUnits, ← hnu]
  simp only [Heap.morecore, ← hnu] at hm
  split at hm
  · cases hm
    rfl
  · obtain ⟨g, hfree, hg⟩ := Option.bind_eq_some_iff.mp hm
    cases hg
    exact free_asked hfree

theorem mallocLoop_asked {sbrk : Sbrk} {prevp p r : Nat}
    (hm : h.mallocLoop sbrk u k prevp p = some (h', r)) :
    ∃ n, h'.asked = h.asked ++ List.replicate n (request u) := by
  induction k generalizing h prevp p with
  | zero => cases hm
  | succ k ih =>
    rw [Heap.mallocLoop] at hm
    split_ifs at hm with hsize hp
    · have hcarve := carve_asked (h := h) u prevp p
      rw [Option.some.inj hm] at hcarve
      exact ⟨0, by simpa using hcarve⟩
    · split at hm
      · cases hm
      · rename_i g hmore
        cases hm
        exact ⟨1, morecore_asked hmore⟩
      · rename_i g p' hp' hmore
        obtain ⟨n, hn⟩ := ih hm
        exact ⟨n + 1, by rw [hn, morecore_asked hmore, List.append_assoc, List.replicate_succ]; rfl⟩
    · exact ih hm

theorem request_positive (hu : u < 2 ^ 28) :
    0 < int32 (request u).1 ∧ (((request u).2 * unit : Nat) : Int) ≤ int32 (request u).1 := by
  dsimp only [request]
  have hle : 0 < coreUnits u ∧ coreUnits u < 2 ^ 28 := by
    unfold coreUnits
    split <;> omega
  have hbytes : uint (coreUnits u * unit) = coreUnits u * unit := by
    rw [uint, Nat.mod_eq_of_lt]
    unfold unit
    omega
  have hint : int32 ((coreUnits u * unit : Nat) : Int) = (coreUnits u * unit : Nat) := by
    unfold unit
    simp only [int32, Int.bmod]
    norm_num
    omega
  rw [hbytes, hint]
  unfold unit
  omega

theorem asks_positive (sbrk : Sbrk) {nbytes r : Nat} (hu : nunits nbytes < 2 ^ 28)
    (hm : h.malloc base sbrk k nbytes = some (h', r)) :
    ∀ c ∈ h'.asked.drop h.asked.length,
      0 < int32 c.1 ∧ ((c.2 * unit : Nat) : Int) ≤ int32 c.1 := by
  rw [malloc_eq] at hm
  obtain ⟨n, hn⟩ := mallocLoop_asked hm
  rw [hn, opened_asked, List.drop_left]
  intro c hc
  rw [List.eq_of_mem_replicate hc]
  exact request_positive hu

theorem Sound.asks (hs : Sound base h free live) {sbrk : Sbrk} {r : Nat} (hu : 0 < u)
    (hsmall : ∀ p ∈ free, h.size p.start < u) (hk : free.length < k)
    (hm : h.mallocLoop sbrk u k h.freep (h.ptr h.freep) = some (h', r)) :
    request u ∈ h'.asked.drop h.asked.length := by
  obtain ⟨m, prevp, -, hfreep, hscan⟩ := hs.scan sbrk hu hsmall hk
  rw [hscan, Heap.mallocLoop, if_neg hfreep, if_pos rfl] at hm
  split at hm
  · cases hm
  · rename_i g hmore
    cases hm
    rw [morecore_asked hmore, List.drop_left]
    exact List.mem_singleton_self _
  · rename_i g p hp hmore
    obtain ⟨n, hn⟩ := mallocLoop_asked hm
    rw [hn, morecore_asked hmore, List.append_assoc, List.drop_left]
    exact List.mem_append_left _ (List.mem_singleton_self _)

theorem Sound.free_size (hs : Sound base h free live) {p : Piece} (hp : p ∈ free) :
    0 < h.size p.start ∧ unit * h.size p.start < h.brk := by
  have hsize := hs.list.size p hp
  have hmem := List.mem_append_left live hp
  have hproper := hs.tiles.proper p hmem
  have hbounds := hs.bounds hmem
  have hbase := hs.start.1
  unfold unit at *
  omega

theorem request_negative (hu : 2 ^ 28 ≤ u) (hu' : u ≤ 2 ^ 29) : int32 (request u).1 ≤ 0 := by
  dsimp only [request]
  have hle : coreUnits u = u := if_neg (by omega)
  rw [hle]
  unfold unit
  simp only [int32, Int.bmod, uint]
  norm_num
  omega

theorem Sound.malloc (hs : Sound base (h.opened base) free live) (sbrk : Sbrk)
    (hk : 2 * free.length + 4 ≤ k) (nbytes : Nat) (h0 : 0 < nunits nbytes)
    (hu : nunits nbytes < 2 ^ 28) :
    ∃ h' r, h.malloc base sbrk k nbytes = some (h', r) ∧
      (r = 0 ↔ (∀ p ∈ free, (h.opened base).size p.start < nunits nbytes) ∧
        sbrk.run h.brk (coreUnits (nunits nbytes) * unit) = none) ∧
      (r ≠ 0 → h'.size (r - unit) = nunits nbytes ∧
        ∀ x, r - unit ≤ x → x < r - unit + unit * h'.size (r - unit) → x ∈ h'.memory) := by
  obtain ⟨h', r, hcall, hzero, -, free', -, hr⟩ := hs.mallocLoop sbrk h0 hu.le hk
  refine ⟨h', r, (malloc_eq sbrk k h nbytes).trans hcall, by rwa [opened_brk] at hzero, ?_⟩
  intro hne
  rcases hr with ⟨rfl, -⟩ | ⟨q, rfl, hs', hstop, hsize⟩
  · exact absurd rfl hne
  · rw [Nat.add_sub_cancel]
    refine ⟨hsize, fun x h1 h2 => ?_⟩
    rw [hsize, hstop] at h2
    rw [← hs'.tiles.cover]
    exact ⟨q, by simp, h1, h2⟩

theorem Arithmetic.of_small (hs : Sound base (h.opened base) free live) (sbrk : Sbrk)
    (hk : 2 * free.length + 4 ≤ k) {nbytes : Nat} (hn : nbytes ≤ 2 ^ 31 - 16) :
    Arithmetic base sbrk k h nbytes := by
  have hunits : nunits nbytes = (nbytes + 7) / 8 + 1 := by
    unfold nunits uint unit
    omega
  obtain ⟨h', r, hcall, -, hr⟩ := hs.malloc sbrk hk nbytes (by omega) (by omega)
  refine ⟨⟨h', r, hcall, ?_⟩, fun _ _ => asks_positive sbrk (by omega)⟩
  by_cases hzero : r = 0
  · exact .inl hzero
  · obtain ⟨hsize, hin⟩ := hr hzero
    refine .inr ⟨?_, hin⟩
    rw [hsize, hunits]
    unfold unit
    omega

theorem malloc_arithmetic_iff (hs : Sound base (h.opened base) free live)
    (hbrk : h.brk ≤ 2 ^ 31) (sbrk : Sbrk) (hk : 2 * free.length + 4 ≤ k) {nbytes : Nat}
    (hn : nbytes < 2 ^ 32) :
    Arithmetic base sbrk k h nbytes ↔ nbytes ≤ 2 ^ 31 - 16 ∨
      2 ^ 32 - 7 ≤ nbytes ∧ free = [] ∧ sbrk.run h.brk (4096 * unit) = none := by
  rcases Nat.lt_or_ge nbytes (2 ^ 31 - 15) with hsmall | hlarge
  · exact ⟨fun _ => .inl (by omega), fun _ => .of_small hs sbrk hk (by omega)⟩
  rcases Nat.lt_or_ge nbytes (2 ^ 32 - 7) with hmiddle | hwrap
  · -- No free block is that large, so that morecore asks sbrk for it.
    have hunits : 2 ^ 28 ≤ nunits nbytes ∧ nunits nbytes ≤ 2 ^ 29 := by
      unfold nunits uint unit
      omega
    have hfree : ∀ p ∈ free, (h.opened base).size p.start < nunits nbytes := by
      intro p hp
      have hsize := (hs.free_size hp).2
      rw [opened_brk] at hsize
      unfold unit at hsize
      omega
    have hneg := request_negative hunits.1 hunits.2
    constructor
    · intro h
      obtain ⟨h', r, hcall, -⟩ := h.block
      have hasks := hs.asks (by omega) hfree (by omega)
        ((malloc_eq sbrk k _ nbytes).symm.trans hcall)
      rw [opened_asked] at hasks
      exact absurd (h.asks h' r hcall _ hasks).1 (Int.not_lt.mpr hneg)
    · intro h
      omega
  · have hunits : nunits nbytes = 1 := by
      unfold nunits uint unit
      omega
    obtain ⟨h', r, hcall, hzero, hr⟩ := hs.malloc sbrk hk nbytes (by omega) (by omega)
    have hempty : (∀ p ∈ free, (h.opened base).size p.start < nunits nbytes) ↔ free = [] := by
      constructor
      · intro hall
        refine List.eq_nil_iff_forall_not_mem.mpr fun p hp => ?_
        have hsize := (hs.free_size hp).1
        have hlt := hall p hp
        omega
      · rintro rfl
        simp
    rw [hempty, hunits] at hzero
    constructor
    · intro h
      obtain ⟨h'', r', hcall', hblock⟩ := h.block
      cases hcall.symm.trans hcall'
      refine .inr ⟨hwrap, hzero.mp ?_⟩
      by_contra hne
      have hsize := (hr hne).1
      have hroom := (hblock.resolve_left hne).1
      rw [hsize, hunits] at hroom
      unfold unit at hroom
      omega
    · rintro (hle | ⟨-, hnone⟩)
      · omega
      · exact ⟨⟨h', r, hcall, .inl (hzero.mpr hnone)⟩, fun _ _ => asks_positive sbrk (by omega)⟩

def freshHeap : Heap := ⟨fun _ => ⟨0, 0⟩, 0, 0x3000, [], []⟩

theorem freshHeap_sound : Sound 0x1000 (freshHeap.opened 0x1000) [] [] := by
  have hstart : 0 < 0x1000 ∧ 0x1000 + unit ≤ 0x3000 ∧ 0x3000 < 2 ^ 32 := by decide
  exact (Program.opened_sound (fun _ => ⟨0, 0⟩) hstart.1 hstart.2.1 hstart.2.2).1

theorem malloc_arithmetic_page : Arithmetic 0x1000 Program.nextPage 4 freshHeap 4096 :=
  (malloc_arithmetic_iff freshHeap_sound (by decide) Program.nextPage (by decide)
    (by decide)).mpr (.inl (by decide))

-- 0xffffffff bytes: one unit, which has no room after its header.
theorem malloc_wraps : ¬ ∀ (base k nbytes : Nat) (h : Heap) (free live : List Piece) (sbrk : Sbrk),
    Sound base (h.opened base) free live → h.brk ≤ 2 ^ 31 → 2 * free.length + 4 ≤ k →
      nbytes < 2 ^ 32 → Arithmetic base sbrk k h nbytes := by
  intro hall
  obtain ⟨h', r, hcall, hr⟩ := (hall 0x1000 4 0xffffffff freshHeap [] [] Program.nextPage
    freshHeap_sound (by decide) (by decide) (by decide)).block
  have hrun : (freshHeap.malloc 0x1000 Program.nextPage 4 0xffffffff).map
      (fun x => (x.2, x.1.size (x.2 - unit))) = some (0xb000, 1) := by decide +kernel
  rw [hcall, Option.map_some, Option.some_inj, Prod.mk.injEq] at hrun
  rcases hr with hzero | ⟨hroom, -⟩
  · omega
  · rw [hrun.2] at hroom
    unfold unit at hroom
    omega

end Xv6.Umalloc
