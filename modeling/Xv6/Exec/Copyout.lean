import Xv6.Exec.Fits
import Xv6.Vm.Removal

namespace Xv6
namespace Vm

variable {L : Layout} {vm₀ vm vm' vm'' : Vm} {role : Nat → Role} {d va n m : Nat}
  {bs : List UInt8}

def UserPage (vm : Vm) (d w : Nat) : Prop := ∃ e, vm.page d w = some e ∧ e.perm.u = true

def KernelOnly (vm : Vm) (d : Nat) : Prop :=
  ∀ w e, 2 ^ 19 ≤ w → vm.page d w = some e → e.perm.u = false

theorem UserPage.lt (h : KernelOnly vm d) {w : Nat} (hu : UserPage vm d w) : w < 2 ^ 19 := by
  obtain ⟨e, he, hu⟩ := hu
  by_contra hge
  rw [h w e (by omega) he] at hu
  cases hu

structure Writes (d va n : Nat) (bs : List UInt8) (vm vm' : Vm) : Prop where
  same : SameTables vm vm'
  bytes : ∀ w e k, k < pgsize → vm.page d w = some e → e.perm.u = true →
    vm'.data e.page k = if va ≤ w * pgsize + k ∧ w * pgsize + k < va + n
      then bs.getD (w * pgsize + k - va) 0 else vm.data e.page k
  only : ∀ p k, vm'.data p k ≠ vm.data p k → ∃ w e, vm.page d w = some e ∧ e.perm.u = true ∧
    e.page = p ∧ k < pgsize

theorem Writes.none (d va : Nat) (bs : List UInt8) (vm : Vm) : Writes d va 0 bs vm vm := by
  refine ⟨.refl vm, fun w e k _ _ _ => ?_, fun p k hne => absurd rfl hne⟩
  rw [if_neg (by omega)]

theorem Writes.append (h : Writes d va m bs vm vm')
    (h' : Writes d (va + m) n (bs.drop m) vm' vm'') : Writes d va (m + n) bs vm vm'' := by
  refine ⟨h.same.trans h'.same, fun w e k hk he hu => ?_, fun p k hne => ?_⟩
  · have he' : vm'.page d w = some e := by rw [h.same.page, he]
    have hdrop : va + m ≤ w * pgsize + k →
        (bs.drop m).getD (w * pgsize + k - (va + m)) 0 = bs.getD (w * pgsize + k - va) 0 := by
      intro hle
      rw [List.getD_eq_getElem?_getD, List.getD_eq_getElem?_getD, List.getElem?_drop]
      congr 2
      omega
    rw [h'.bytes w e k hk he' hu, h.bytes w e k hk he hu]
    split_ifs <;> first | rfl | (exfalso; omega) | exact hdrop (by omega)
  · rcases eq_or_ne (vm''.data p k) (vm'.data p k) with heq | hne'
    · rw [heq] at hne
      exact h.only p k hne
    · obtain ⟨w, e, he, hrest⟩ := h'.only p k hne'
      rw [h.same.page] at he
      exact ⟨w, e, he, hrest⟩

theorem Writes.store {e : Pte} (h : Ok L vm role) (hd : role d = .dir) (hkern : KernelOnly vm d)
    (he : vm.page d (va / pgsize) = some e) (hu : e.perm.u = true) (hn : n ≤ bs.length)
    (hfit : va - va / pgsize * pgsize + n ≤ pgsize) :
    Writes d va n bs vm (vm.store e.page (va - va / pgsize * pgsize) (bs.take n)) := by
  have hlen : (bs.take n).length = n := by
    rw [List.length_take]
    omega
  have hround : va / pgsize * pgsize ≤ va := Nat.div_mul_le_self va pgsize
  have hlt := UserPage.lt hkern ⟨e, he, hu⟩
  have htake : ∀ i < n, (bs.take n).getD i 0 = bs.getD i 0 := fun i hi => by
    rw [List.getD_eq_getElem?_getD, List.getD_eq_getElem?_getD, List.getElem?_take_of_lt hi]
  refine ⟨store_same .., fun w e' k hk he' hu' => ?_, fun p k hne => ?_⟩
  · have hlt' := UserPage.lt hkern ⟨e', he', hu'⟩
    rcases eq_or_ne w (va / pgsize) with rfl | hw
    · rw [he] at he'
      cases he'
      simp only [Vm.store, Function.update_self, hlen]
      split_ifs with hin hin' hin'
      · rw [htake _ (by omega)]
        congr 1
        omega
      · omega
      · omega
      · rfl
    · have hne : e'.page ≠ e.page := fun heq => hw (h.page_inj hd hd hlt' hlt he' he heq).2
      simp only [Vm.store, Function.update_of_ne hne]
      rw [if_neg]
      rintro ⟨hlow, hhigh⟩
      apply hw
      simp only [pgsize] at *
      omega
  · rcases eq_or_ne p e.page with rfl | hp
    · simp only [Vm.store, Function.update_self, hlen] at hne
      refine ⟨_, e, he, hu, rfl, ?_⟩
      by_contra hk
      rw [if_neg (by omega)] at hne
      exact hne rfl
    · simp only [Vm.store, Function.update_of_ne hp] at hne
      exact absurd rfl hne

theorem copyoutLoop_nil (d fuel va : Nat) (vm : Vm) :
    copyoutLoop d fuel vm va [] = .ok (vm, true) := by
  cases fuel <;> rfl

theorem copyoutLoop_writes (h : Exact L vm₀ role) (hd : role d = .dir) (hkern : KernelOnly vm₀ d)
    (fuel : Nat) : ∀ {vm : Vm} {va : Nat} {bs : List UInt8}, SameTables vm₀ vm →
    bs.length ≤ fuel → va < 2 ^ 32 →
    ∃ n ≤ bs.length, (∀ a, va ≤ a → a < va + n → UserPage vm₀ d (a / pgsize)) ∧
      (n = bs.length ∧ (∃ vm', copyoutLoop d fuel vm va bs = .ok (vm', true) ∧
          Writes d va n bs vm vm') ∨
        n < bs.length ∧ ¬ UserPage vm₀ d ((va + n) / pgsize) ∧
          (vm₀.present d ((va + n) / pgsize / 1024) = true → ∃ vm',
            copyoutLoop d fuel vm va bs = .ok (vm', false) ∧ Writes d va n bs vm vm') ∧
          (vm₀.present d ((va + n) / pgsize / 1024) = false →
            copyoutLoop d fuel vm va bs = .error .nullPte)) := by
  induction fuel with
  | zero =>
    intro vm va bs hs hlen _
    obtain rfl : bs = [] := List.length_eq_zero_iff.mp (by omega)
    exact ⟨0, le_rfl, fun a _ _ => by omega, .inl ⟨rfl, vm, rfl, .none ..⟩⟩
  | succ fuel ih =>
    intro vm va bs hs hlen hva
    cases bs with
    | nil => exact ⟨0, le_rfl, fun a _ _ => by omega, .inl ⟨rfl, vm, rfl, .none ..⟩⟩
    | cons b bs =>
      have hround : pgrounddown va = va / pgsize * pgsize := rfl
      have hpage : va / pgsize < 2 ^ 20 := by
        simp only [pgsize]
        omega
      rw [copyoutLoop, hround]
      cases hpres : vm₀.present d (va / pgsize / 1024) with
      | false =>
        have hno : ¬ UserPage vm₀ d (va / pgsize) := by
          rintro ⟨e, he, _⟩
          rw [page_of_absent hpres] at he
          cases he
        refine ⟨0, Nat.zero_le _, fun a _ _ => by omega,
          .inr ⟨Nat.succ_pos _, hno, ?_, fun _ => ?_⟩⟩
        · intro htrue
          rw [Nat.add_zero, hpres] at htrue
          cases htrue
        · rw [walk_absent hpage (by rw [hs.present, hpres])]
      | true =>
        obtain ⟨pt, hwalk, _, hleaf⟩ := walk_present hpage (show vm.present d _ = true by
          rw [hs.present, hpres])
        rw [hs.page] at hleaf
        rw [hwalk]
        dsimp only
        split
        · rename_i page w he
          rw [he] at hleaf
          have hlt := UserPage.lt hkern ⟨_, hleaf, rfl⟩
          generalize hm : min (pgsize - (va - va / pgsize * pgsize)) (b :: bs).length = m
          have hstore : Writes d va m (b :: bs) vm
              (vm.store page (va - va / pgsize * pgsize) ((b :: bs).take m)) := by
            have hfit : va - va / pgsize * pgsize + m ≤ pgsize := by
              simp only [pgsize] at *
              omega
            exact Writes.store (e := ⟨page, w, true⟩) (hs.exact h).ok hd
              (fun w e hw he => hkern w e hw (by rw [← hs.page, he]))
              (by rw [hs.page, hleaf]) rfl (by omega) hfit
          have hnext : uint (va / pgsize * pgsize + pgsize) = (va / pgsize + 1) * pgsize := by
            simp only [uint, pgsize] at hlt ⊢
            omega
          have huser : ∀ a, va ≤ a → a < va + m → UserPage vm₀ d (a / pgsize) := by
            intro a ha ham
            have : a / pgsize = va / pgsize := by
              simp only [pgsize] at *
              omega
            rw [this]
            exact ⟨_, hleaf, rfl⟩
          rw [hnext]
          rcases Nat.lt_or_ge (pgsize - (va - va / pgsize * pgsize)) (b :: bs).length with
            hmore | hall
          · have hend : (va / pgsize + 1) * pgsize = va + m := by
              simp only [pgsize] at *
              omega
            have hdrop : ((b :: bs).drop m).length = (b :: bs).length - m := List.length_drop
            rw [hend]
            have hrest : ((b :: bs).drop m).length ≤ fuel := by
              simp only [pgsize] at *
              omega
            obtain ⟨n, hn, hbelow, hres⟩ := ih (hs.trans hstore.same) hrest
              (show va + m < 2 ^ 32 by simp only [pgsize] at *; omega)
            rw [hdrop] at hn hres
            rw [Nat.add_assoc] at hbelow hres
            refine ⟨m + n, by omega, fun a ha han => ?_, ?_⟩
            · rcases Nat.lt_or_ge a (va + m) with hlt' | hge
              · exact huser a ha hlt'
              · exact hbelow a hge han
            · rcases hres with ⟨hwhole, vm', hloop, hw⟩ | ⟨hpart, hbad, hfound, hmissing⟩
              · exact .inl ⟨by omega, vm', hloop, hstore.append hw⟩
              · refine .inr ⟨by omega, hbad, fun hp => ?_, hmissing⟩
                obtain ⟨vm', hloop, hw⟩ := hfound hp
                exact ⟨vm', hloop, hstore.append hw⟩
          · obtain rfl : m = (b :: bs).length := by omega
            rw [List.drop_length, copyoutLoop_nil]
            exact ⟨_, le_rfl, huser, .inl ⟨rfl, _, rfl, hstore⟩⟩
        · rename_i hno
          have hno' : ¬ UserPage vm₀ d (va / pgsize) := by
            rintro ⟨⟨page, w, u⟩, he, hu⟩
            rw [hleaf] at he
            dsimp only at hu
            subst hu
            exact hno page w he
          refine ⟨0, Nat.zero_le _, fun a _ _ => by omega, .inr ⟨Nat.succ_pos _, hno', fun _ => ?_,
            fun hfalse => ?_⟩⟩
          · exact ⟨vm, rfl, .none ..⟩
          · rw [Nat.add_zero, hpres] at hfalse
            cases hfalse

structure CopiedOut (d va : Nat) (bs : List UInt8) (vm vm' : Vm) (copied : Bool) : Prop where
  result : copied = true ↔ va + bs.length ≤ 2 ^ 32 ∧
    ∀ a, va ≤ a → a < va + bs.length → UserPage vm d (a / pgsize)
  bytes : copied = true → ∀ w e k, k < pgsize → vm.page d w = some e → e.perm.u = true →
    vm'.data e.page k = if va ≤ w * pgsize + k ∧ w * pgsize + k < va + bs.length
      then bs.getD (w * pgsize + k - va) 0 else vm.data e.page k
  only : ∀ p k, vm'.data p k ≠ vm.data p k → ∃ w e, vm.page d w = some e ∧ e.perm.u = true ∧
    e.page = p ∧ k < pgsize

theorem Writes.copiedOut {copied : Bool} (h : Writes d va n bs vm vm')
    (hn : copied = true → n = bs.length)
    (hresult : copied = true ↔ va + bs.length ≤ 2 ^ 32 ∧
      ∀ a, va ≤ a → a < va + bs.length → UserPage vm d (a / pgsize)) :
    CopiedOut d va bs vm vm' copied :=
  ⟨hresult, fun hc => hn hc ▸ h.bytes, h.only⟩

def FirstBad (vm : Vm) (d va len a : Nat) : Prop :=
  va ≤ a ∧ a < va + len ∧ (∀ a', va ≤ a' → a' < a → UserPage vm d (a' / pgsize)) ∧
    ¬ UserPage vm d (a / pgsize)

theorem FirstBad.unique {len a a' : Nat} (h : FirstBad vm d va len a)
    (h' : FirstBad vm d va len a') : a = a' := by
  rcases lt_trichotomy a a' with hlt | heq | hlt
  · exact absurd (h'.2.2.1 a h.1 hlt) h.2.2.2
  · exact heq
  · exact absurd (h.2.2.1 a' h'.1 hlt) h'.2.2.2

theorem copyout_user_iff (L : Layout) (vm : Vm) (role : Nat → Role) (d va : Nat) (bs : List UInt8)
    (h : Exact L vm role) (hd : role d = .dir) (hkern : KernelOnly vm d)
    (hva : va < 2 ^ 32) :
    (∃ vm' copied, vm.copyout d va bs = .ok (vm', copied) ∧ CopiedOut d va bs vm vm' copied) ↔
      ∀ a, FirstBad vm d va bs.length a → vm.present d (a / pgsize / 1024) = true := by
  obtain ⟨n, hn, hbelow, hres⟩ := copyoutLoop_writes h hd hkern bs.length (.refl vm) le_rfl hva
  rcases hres with ⟨rfl, vm', hcall, hw⟩ | ⟨hlt, hbad, hfound, hmissing⟩
  · refine iff_of_true
      ⟨vm', true, hcall, hw.copiedOut (fun _ => rfl) (iff_of_true rfl ⟨?_, hbelow⟩)⟩
      fun a ha => absurd (hbelow a ha.1 ha.2.1) ha.2.2.2
    -- Past the end of memory lies a page of the kernel.
    by_contra hwrap
    have hlast := (hbelow (2 ^ 32 - 1) (by omega) (by omega)).lt hkern
    simp only [pgsize] at hlast
    omega
  · have hfirst : FirstBad vm d va bs.length (va + n) :=
      ⟨Nat.le_add_right va n, by omega, hbelow, hbad⟩
    cases hpres : vm.present d ((va + n) / pgsize / 1024) with
    | true =>
      obtain ⟨vm', hcall, hw⟩ := hfound hpres
      refine iff_of_true ⟨vm', false, hcall, hw.copiedOut nofun (iff_of_false nofun ?_)⟩ ?_
      · rintro ⟨_, hall⟩
        exact hbad (hall (va + n) (Nat.le_add_right va n) (by omega))
      · intro a ha
        rw [ha.unique hfirst, hpres]
    | false =>
      refine iff_of_false ?_ fun hall => ?_
      · rintro ⟨vm', copied, hcall, _⟩
        rw [copyout, hmissing hpres] at hcall
        cases hcall
      · rw [hall _ hfirst] at hpres
        cases hpres

theorem pageVm_kernelOnly {perm : Perm} {free : List Nat} :
    KernelOnly (pageVm 0 perm free) 500 := by
  intro w e hw he
  rw [pageVm_page, if_neg (by omega)] at he
  cases he

theorem copyout_user_iff_page : ∃ vm' copied,
    (pageVm 0 userPerm []).copyout 500 0xffe [1, 2, 3] = .ok (vm', copied) ∧
      CopiedOut 500 0xffe [1, 2, 3] (pageVm 0 userPerm []) vm' copied := by
  refine (copyout_user_iff sampleLayout (pageVm 0 userPerm []) (pageRole 0 []) 500 0xffe
    [1, 2, 3] (pageVm_exact (by decide) (by decide) (by decide)) rfl pageVm_kernelOnly
    (by decide)).mpr fun a ha => ?_
  have hlow := ha.1
  have hhigh : a < 0xffe + 3 := ha.2.1
  rw [pageVm_present, decide_eq_true_iff]
  simp only [pgsize]
  omega

-- No page table covers 4 MB, and uva2ka reads the entry through a null pointer.
theorem copyout_null : ¬ ∀ (L : Layout) (vm : Vm) (role : Nat → Role) (d va : Nat)
    (bs : List UInt8), Exact L vm role → role d = .dir → KernelOnly vm d → va < 2 ^ 32 →
    ∃ vm' copied, vm.copyout d va bs = .ok (vm', copied) ∧ CopiedOut d va bs vm vm' copied := by
  intro hall
  obtain ⟨vm', copied, hcall, _⟩ := hall sampleLayout (pageVm 0 userPerm []) (pageRole 0 []) 500
    0x400000 [1] (pageVm_exact (by decide) (by decide) (by decide)) rfl pageVm_kernelOnly
    (by decide)
  cases hcall

end Vm
end Xv6
