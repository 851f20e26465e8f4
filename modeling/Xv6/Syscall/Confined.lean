import Xv6.Syscall.ReadWrite

namespace Xv6.Syscall

def kernbase : Word := 0x80000000

theorem mem_bytes {a addr : Word} {n : Nat} :
    a ∈ bytes addr n ↔ ∃ k < n, a = addr + BitVec.ofNat 32 k := by
  simp only [bytes, List.mem_map, List.mem_range, eq_comm]

theorem bytes_add (addr : Word) (m n : Nat) :
    bytes addr (m + n) = bytes addr m ++ bytes (addr + BitVec.ofNat 32 m) n := by
  simp only [bytes, List.range_add, List.map_append, List.map_map]
  congr 1
  refine List.map_congr_left fun k _ => ?_
  simp only [Function.comp_apply, BitVec.ofNat_add, BitVec.add_assoc]

theorem bytes_subset {addr : Word} {m n : Nat} (h : m ≤ n) : bytes addr m ⊆ bytes addr n := by
  intro a ha
  obtain ⟨k, hk, rfl⟩ := mem_bytes.mp ha
  exact mem_bytes.mpr ⟨k, by omega, rfl⟩

theorem bytes_below {addr sz : Word} {n : Nat} (h : addr.toNat + n ≤ sz.toNat) :
    ∀ a ∈ bytes addr n, a < sz := by
  intro a ha
  obtain ⟨k, hk, rfl⟩ := mem_bytes.mp ha
  have hsz := sz.isLt
  rw [BitVec.lt_def, BitVec.toNat_add, BitVec.toNat_ofNat]
  omega

theorem bytes_below_iff {addr sz : Word} {n : Nat} (haddr : addr < sz) :
    (∀ a ∈ bytes addr n, a < sz) ↔ addr.toNat + n ≤ sz.toNat := by
  refine ⟨fun h => ?_, bytes_below⟩
  by_contra hlong
  rw [BitVec.lt_def] at haddr
  have hsz : sz = addr + BitVec.ofNat 32 (sz.toNat - addr.toNat) := by
    have hlt := sz.isLt
    refine BitVec.eq_of_toNat_eq ?_
    rw [BitVec.toNat_add, BitVec.toNat_ofNat]
    omega
  exact BitVec.lt_irrefl sz (h sz (mem_bytes.mpr ⟨sz.toNat - addr.toNat, by omega, hsz⟩))

theorem toNat_le_of_toInt {n : Word} : n.toInt.toNat ≤ n.toNat := by
  simp only [BitVec.toInt_eq_toNat_cond]
  split <;> omega

theorem byteLoop_subset (stop : Nat → Bool) (addr : Word) (k i : Nat) :
    byteLoop stop addr k i ⊆ bytes addr (i + k) := by
  induction k generalizing i with
  | zero => exact List.nil_subset _
  | succ k ih =>
    rw [byteLoop]
    split
    · exact List.nil_subset _
    · refine List.cons_subset.mpr ⟨mem_bytes.mpr ⟨i, by omega, rfl⟩, ?_⟩
      have hrest := ih (i + 1)
      rwa [show i + 1 + k = i + (k + 1) by omega] at hrest

theorem consoleread_subset (s : Shared) (n k : Nat) (dst : Word) :
    consoleread s n k dst ⊆ bytes dst n := by
  induction n generalizing k dst with
  | zero => exact List.nil_subset _
  | succ n ih =>
    rw [consoleread]
    split
    · exact List.nil_subset _
    · exact List.nil_subset _
    · refine List.cons_subset.mpr ⟨mem_bytes.mpr ⟨0, by simp⟩, ?_⟩
      split
      · exact List.nil_subset _
      · intro a ha
        have hrest := ih (k + 1) (dst + 1) ha
        rw [Nat.add_comm n 1, bytes_add]
        exact List.mem_append_right _ hrest

theorem minUint_spec {a b : Word} (ha : 0 < a) (hb : 0 < b) :
    0 < (minUint a b).toNat ∧ (minUint a b).toNat ≤ a.toNat := by
  unfold minUint
  split <;> simp only [BitVec.lt_def] at * <;> omega

theorem block_rest_pos (off : Word) : 0 < 512 - off % 512 := by
  have hmod : off % 512 < 512 := BitVec.umod_lt off (by decide)
  bv_omega

theorem copyLoop_eq {fuel : Nat} {n tot : Word} (off addr : Word) (h : tot ≤ n)
    (hfuel : n.toNat - tot.toNat ≤ fuel) :
    copyLoop fuel n tot off addr = bytes addr (n.toNat - tot.toNat) := by
  induction fuel generalizing tot off addr with
  | zero =>
    rw [show n.toNat - tot.toNat = 0 by omega]
    rfl
  | succ fuel ih =>
    rw [copyLoop]
    split
    · rename_i hlt
      rw [BitVec.lt_def] at hlt
      have hsub : (n - tot).toNat = n.toNat - tot.toNat := BitVec.toNat_sub_of_le h
      have hpos : 0 < n - tot := by
        rw [BitVec.lt_def, hsub]
        exact Nat.sub_pos_of_lt hlt
      obtain ⟨hm, hle⟩ := minUint_spec hpos (block_rest_pos off)
      generalize minUint (n - tot) (512 - off % 512) = m at hm hle
      dsimp only
      have hn := n.isLt
      have htot : (tot + m).toNat = tot.toNat + m.toNat := by
        rw [BitVec.toNat_add]
        omega
      have hrest := ih (off + m) (addr + m) (show tot + m ≤ n by rw [BitVec.le_def]; omega)
        (by omega)
      rw [hrest, show n.toNat - tot.toNat = m.toNat + (n.toNat - (tot + m).toNat) by omega,
        bytes_add, BitVec.ofNat_toNat, BitVec.setWidth_eq]
    · rename_i hlt
      rw [BitVec.lt_def] at hlt
      rw [show n.toNat - tot.toNat = 0 by omega]
      rfl

theorem copyLoop_all (n off addr : Word) : copyLoop n.toNat n 0 off addr = bytes addr n.toNat := by
  have h := copyLoop_eq off addr (show (0 : Word) ≤ n by simp [BitVec.le_def])
    (show n.toNat - (0 : Word).toNat ≤ n.toNat by omega)
  simpa using h

theorem readi_regular {s : Shared} {off n : Word} (dst : Word) (hoff : off ≤ s.size 0)
    (hsum : off ≤ off + n) :
    readi s .regular dst off n = bytes dst (min n.toNat ((s.size 0).toNat - off.toNat)) := by
  have hgo : ¬ (off > s.size 0 ∨ off + n < off) :=
    not_or.mpr ⟨BitVec.not_lt.mpr hoff, BitVec.not_lt.mpr hsum⟩
  rw [readi, if_neg hgo, copyLoop_all]
  congr 1
  split
  · simp only [BitVec.lt_def, BitVec.le_def, BitVec.toNat_add, BitVec.toNat_sub, gt_iff_lt] at *
    omega
  · simp only [BitVec.lt_def, BitVec.le_def, BitVec.toNat_add, gt_iff_lt] at *
    omega

theorem readi_regular_refused {s : Shared} {off n : Word} (dst : Word)
    (h : ¬ (off ≤ s.size 0 ∧ off ≤ off + n)) : readi s .regular dst off n = [] := by
  rw [readi, if_pos]
  rcases not_and_or.mp h with h | h
  · exact .inl (BitVec.not_le.mp h)
  · exact .inr (BitVec.not_le.mp h)

theorem readi_subset (s : Shared) (type : InodeType) (dst off n : Word) :
    readi s type dst off n ⊆ bytes dst n.toNat := by
  cases type with
  | dev major =>
    rw [readi]
    split
    · exact List.Subset.trans (consoleread_subset s _ 0 dst) (bytes_subset toNat_le_of_toInt)
    · exact List.nil_subset _
  | regular =>
    by_cases h : off ≤ s.size 0 ∧ off ≤ off + n
    · rw [readi_regular dst h.1 h.2]
      exact bytes_subset (min_le_left _ _)
    · rw [readi_regular_refused dst h]
      exact List.nil_subset _

theorem writei_subset (s : Shared) (k : Nat) (type : InodeType) (src off n : Word) :
    (writei s k type src off n).1 ⊆ bytes src n.toNat := by
  cases type with
  | dev major =>
    rw [writei]
    split
    · exact bytes_subset toNat_le_of_toInt
    · exact List.nil_subset _
  | regular =>
    rw [writei]
    split
    · exact List.nil_subset _
    · split
      · exact List.nil_subset _
      · rw [copyLoop_all]
        exact List.Subset.refl _

theorem chunk_spec {n i : Word} (hi : 0 ≤ i.toInt) (h : i.toInt < n.toInt) :
    i.toNat + (chunk n i).toNat ≤ n.toNat ∧ i.toInt < (i + chunk n i).toInt := by
  have hin := i.isLt
  have hnn := n.isLt
  unfold chunk
  split
  · rename_i hmax
    simp only [BitVec.toInt_eq_toNat_cond, gt_iff_lt] at *
    bv_omega
  · simp only [BitVec.toInt_eq_toNat_cond] at *
    bv_omega

theorem filewriteLoop_subset (s : Shared) (type : InodeType) (addr n : Word) (fuel k : Nat)
    {i : Word} (hi : 0 ≤ i.toInt) :
    filewriteLoop s type addr n fuel k i ⊆ bytes addr n.toNat := by
  induction fuel generalizing k i with
  | zero => exact List.nil_subset _
  | succ fuel ih =>
    rw [filewriteLoop]
    split
    · rename_i hlt
      obtain ⟨hpiece, hnext⟩ := chunk_spec hi hlt
      refine List.append_subset.mpr ⟨fun a ha => ?_, ?_⟩
      · have ha := writei_subset s k type (addr + i) (s.off k) (chunk n i) ha
        refine bytes_subset hpiece ?_
        rw [bytes_add, BitVec.ofNat_toNat, BitVec.setWidth_eq]
        exact List.mem_append_right _ ha
      · split
        · exact ih (k + 1) (by omega)
        · exact List.nil_subset _
    · exact List.nil_subset _

-- The fuel that filewrite gives the loop is enough: more does not change what it does.
theorem filewriteLoop_fuel (s : Shared) (type : InodeType) (addr n : Word) {fuel : Nat} (k : Nat)
    {i : Word} (hi : 0 ≤ i.toInt) (hfuel : n.toInt - i.toInt ≤ fuel) :
    filewriteLoop s type addr n (fuel + 1) k i = filewriteLoop s type addr n fuel k i := by
  induction fuel generalizing k i with
  | zero =>
    have hend : ¬ i.toInt < n.toInt := by omega
    simp only [filewriteLoop, if_neg hend]
  | succ fuel ih =>
    rw [filewriteLoop, filewriteLoop]
    split
    · rename_i hlt
      obtain ⟨-, hnext⟩ := chunk_spec hi hlt
      simp only [ih (k + 1) (show 0 ≤ (i + chunk n i).toInt by omega) (by omega)]
    · rfl

theorem fileread_subset (s : Shared) (f : OpenFile) (addr n : Word) :
    fileread s f addr n ⊆ bytes addr n.toNat := by
  unfold fileread
  split
  · exact List.nil_subset _
  · split
    · have hloop := byteLoop_subset s.pipeEmpty addr n.toInt.toNat 0
      rw [Nat.zero_add] at hloop
      exact List.Subset.trans hloop (bytes_subset toNat_le_of_toInt)
    · exact readi_subset s _ addr (s.off 0) n
    · exact List.nil_subset _

theorem filewrite_subset (s : Shared) (f : OpenFile) (addr n : Word) :
    filewrite s f addr n ⊆ bytes addr n.toNat := by
  unfold filewrite
  split
  · exact List.nil_subset _
  · split
    · have hloop := byteLoop_subset s.pipeFails addr n.toInt.toNat 0
      rw [Nat.zero_add] at hloop
      exact List.Subset.trans hloop (bytes_subset toNat_le_of_toInt)
    · exact filewriteLoop_subset s _ addr n n.toNat 0 (by simp)
    · exact List.nil_subset _

theorem toInt_toNat_eq_zero {n : Word} (h : n.toInt < 0) : n.toInt.toNat = 0 := by
  omega

theorem filewrite_negative (s : Shared) (f : OpenFile) (addr : Word) {n : Word} (h : n.toInt < 0) :
    filewrite s f addr n = [] := by
  unfold filewrite
  split
  · rfl
  · split
    · rw [pipewrite, toInt_toNat_eq_zero h, byteLoop]
    · cases n.toNat with
      | zero => rfl
      | succ fuel =>
        rw [filewriteLoop, if_neg]
        rw [show (0 : Word).toInt = 0 from rfl]
        omega
    · rfl

theorem fileread_negative (s : Shared) (f : OpenFile) (addr : Word) {n : Word} (h : n.toInt < 0)
    (hf : ¬ (f.readable = true ∧ f.type = .inode .regular)) : fileread s f addr n = [] := by
  unfold fileread
  split
  · rfl
  · rename_i hr
    split
    · rw [piperead, toInt_toNat_eq_zero h, byteLoop]
    · rename_i type htype
      cases type with
      | regular => exact absurd ⟨by simpa using hr, htype⟩ hf
      | dev major => rw [readi, toInt_toNat_eq_zero h, consoleread, ite_self]
    · rfl

namespace Caller

open Traced

variable {p : Caller}

def Below (p : Caller) (a : Word) : Prop := a < p.sz

theorem fetchint_within (hsz : p.sz ≤ kernbase) (addr : Word) :
    (p.fetchint addr).Within p.Below := by
  unfold fetchint
  split
  · exact within_fail
  · rename_i h
    refine within_bind (within_touch (bytes_below ?_)) fun _ _ => within_pure _
    unfold kernbase at hsz
    bv_omega

theorem argint_within (hsz : p.sz ≤ kernbase) (n : Word) : (p.argint n).Within p.Below :=
  fetchint_within hsz _

theorem argptr_within (hsz : p.sz ≤ kernbase) (n size : Word) :
    (p.argptr n size).Within p.Below := by
  refine within_bind (argint_within hsz n) fun i _ => ?_
  split
  · exact within_fail
  · exact within_pure i

theorem argfd_within (hsz : p.sz ≤ kernbase) (n : Word) : (p.argfd n).Within p.Below := by
  refine within_bind (argint_within hsz n) fun fd _ => ?_
  split
  · split
    · exact within_pure _
    · exact within_fail
  · exact within_fail

-- A length that is not negative cannot make the sum in argptr wrap: sz is at most 2^31.
theorem argptr_fits (hsz : p.sz ≤ kernbase) {n size addr : Word} (hsize : 0 ≤ size.toInt)
    (h : (p.argptr n size).result = some addr) : addr.toNat + size.toNat ≤ p.sz.toNat := by
  obtain ⟨i, -, hi⟩ := bind_result h
  split at hi
  · cases hi
  · rename_i hchk
    cases hi
    have hlt : size.toNat < 2 ^ 31 := by
      simp only [BitVec.toInt_eq_toNat_cond] at hsize
      have := size.isLt
      split at hsize <;> omega
    unfold kernbase at hsz
    bv_omega

theorem argptr_lt {n size addr : Word} (h : (p.argptr n size).result = some addr) :
    addr < p.sz := by
  obtain ⟨i, -, hi⟩ := bind_result h
  split at hi
  · cases hi
  · rename_i hchk
    cases hi
    exact BitVec.not_le.mp fun hle => hchk (.inl hle)

-- A negative length reaches readi of a regular file as a huge one, and then only the size of the
-- file bounds what is stored: from the offset to the end of the file it has to fit.
def NegativeReadFits (p : Caller) (s : Shared) : Prop :=
  ∀ f n addr, (p.argfd 0).result = some f → (p.argint 2).result = some n →
    (p.argptr 1 n).result = some addr → f.readable = true ∧ f.type = .inode .regular →
    n.toInt < 0 → s.off 0 ≤ s.size 0 ∧ s.off 0 ≤ s.off 0 + n →
    addr.toNat + min n.toNat ((s.size 0).toNat - (s.off 0).toNat) ≤ p.sz.toNat

theorem fileread_below_iff (hsz : p.sz ≤ kernbase) (s : Shared) (f : OpenFile) {n addr : Word}
    (h : (p.argptr 1 n).result = some addr) :
    (∀ a ∈ fileread s f addr n, a < p.sz) ↔
      (f.readable = true ∧ f.type = .inode .regular → n.toInt < 0 →
        s.off 0 ≤ s.size 0 ∧ s.off 0 ≤ s.off 0 + n →
        addr.toNat + min n.toNat ((s.size 0).toNat - (s.off 0).toNat) ≤ p.sz.toNat) := by
  by_cases hneg : n.toInt < 0
  · by_cases hf : f.readable = true ∧ f.type = .inode .regular
    · have hread : fileread s f addr n = readi s .regular addr (s.off 0) n := by
        simp only [fileread, hf.1, hf.2, Bool.true_eq_false, if_false]
      rw [hread]
      by_cases hgo : s.off 0 ≤ s.size 0 ∧ s.off 0 ≤ s.off 0 + n
      · rw [readi_regular addr hgo.1 hgo.2, bytes_below_iff (argptr_lt h)]
        exact ⟨fun hfit _ _ _ => hfit, fun hfit => hfit hf hneg hgo⟩
      · rw [readi_regular_refused addr hgo]
        exact ⟨fun _ _ _ hgo' => absurd hgo' hgo, fun _ a ha => by cases ha⟩
    · rw [fileread_negative s f addr hneg hf]
      exact ⟨fun _ hf' => absurd hf' hf, fun _ a ha => by cases ha⟩
  · have hfits := argptr_fits hsz (by omega) h
    refine ⟨fun _ _ hneg' => absurd hneg' hneg, fun _ a ha => ?_⟩
    exact bytes_below hfits a (fileread_subset s f addr n ha)

theorem filewrite_below (hsz : p.sz ≤ kernbase) (s : Shared) (f : OpenFile) {n addr : Word}
    (h : (p.argptr 1 n).result = some addr) : ∀ a ∈ filewrite s f addr n, a < p.sz := by
  by_cases hneg : n.toInt < 0
  · rw [filewrite_negative s f addr hneg]
    intro a ha
    cases ha
  · have hfits := argptr_fits hsz (by omega) h
    exact fun a ha => bytes_below hfits a (filewrite_subset s f addr n ha)

theorem sysRead_within_iff (hsz : p.sz ≤ kernbase) (s : Shared) :
    (p.sysRead s).Within p.Below ↔ p.NegativeReadFits s := by
  simp only [sysRead, within_bind_iff, argfd_within hsz, argint_within hsz, argptr_within hsz,
    true_and]
  constructor
  · intro h f n addr hf hn haddr
    exact (fileread_below_iff hsz s f haddr).mp (h f hf n hn addr haddr)
  · intro h f hf n hn addr haddr
    exact (fileread_below_iff hsz s f haddr).mpr (h f n addr hf hn haddr)

theorem sysWrite_within (hsz : p.sz ≤ kernbase) (s : Shared) :
    (p.sysWrite s).Within p.Below := by
  refine within_bind (argfd_within hsz 0) fun f _ => ?_
  refine within_bind (argint_within hsz 2) fun n _ => ?_
  exact within_bind (argptr_within hsz 1 n) fun addr haddr =>
    within_touch (filewrite_below hsz s f haddr)

theorem user_pointers_confined (p : Caller) (s : Shared) (hsz : p.sz ≤ kernbase) :
    (p.sysRead s).Within (· < p.sz) ∧ (p.sysWrite s).Within (· < p.sz) ↔
      p.NegativeReadFits s :=
  ⟨fun h => (sysRead_within_iff hsz s).mp h.1,
    fun h => ⟨(sysRead_within_iff hsz s).mpr h, sysWrite_within hsz s⟩⟩

def reader (buf n : Word) : Caller where
  sz := 8192
  esp := 0
  mem := fun a => if a = 8 then buf else if a = 12 then n else 0
  ofile := fun fd => if fd = 0 then some ⟨.inode .regular, true, true⟩ else none

def smallFile : Shared where
  off := fun _ => 0
  size := fun _ => 2
  pipeEmpty := fun _ => true
  pipeFails := fun _ => true
  input := fun _ => .eof

theorem user_pointers_confined_reader :
    ((reader 4096 2).sysRead smallFile).Within (· < 8192) ∧
      ((reader 4096 2).sysWrite smallFile).Within (· < 8192) := by
  refine (user_pointers_confined (reader 4096 2) smallFile (by decide)).mpr ?_
  intro f n addr _ hn _ _ hneg
  have htwo : ((reader 4096 2).argint 2).result = some 2 := by decide
  rw [htwo] at hn
  cases hn
  exact absurd hneg (by decide)

-- With length -1 the buffer may start at the last byte of the process: argptr checks the byte
-- before it, and readi clips the length to what the file holds.
theorem negative_read_escapes :
    ¬ ∀ (p : Caller) (s : Shared), p.sz ≤ kernbase →
      (p.sysRead s).Within (· < p.sz) ∧ (p.sysWrite s).Within (· < p.sz) := by
  intro h
  have hread := (h (reader 8191 (-1)) smallFile (by decide)).1 8192 (by decide)
  exact absurd hread (by decide)

end Caller

end Xv6.Syscall
