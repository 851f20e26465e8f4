import Xv6.Exec.Fits

namespace Xv6
namespace Vm

variable {L : Layout} {vm vm' vm₀ : Vm} {role role' role₀ : Nat → Role} {d : Nat} {s : Loading}

theorem lift_ok {A B : Type} {x : Except Panic A} {a : A} (h : x = .ok a)
    (f : A → Except ExecFault B) : (lift x >>= f) = f a := by
  rw [h]
  rfl

theorem bind_ok {A B : Type} {x : Except ExecFault A} {a : A} (h : x = .ok a)
    (f : A → Except ExecFault B) : (x >>= f) = f a := by
  rw [h]
  rfl

theorem bind_error {A B : Type} {x : Except ExecFault A} {e : ExecFault} (h : x = .error e)
    (f : A → Except ExecFault B) : (x >>= f) = .error e := by
  rw [h]
  rfl

structure Built (L : Layout) (d : Nat) (vm₀ vm : Vm) (role₀ role₁ role : Nat → Role)
    (keeps : Prop) (r : Option Loading) : Prop where
  loses : Loses role₀ role₁
  kept : keeps → role₁ = role₀
  gaveUp : r = none → Discardable L d vm₀ vm role₁ role
  space : ∀ s, r = some s → Space L d s vm₀ vm role₁ role

theorem Space.built {keeps : Prop} (h : Space L d s vm₀ vm role₀ role) :
    Built L d vm₀ vm role₀ role₀ role keeps (some s) := by
  refine ⟨.refl role₀, fun _ => rfl, by simp, ?_⟩
  rintro s' ⟨⟩
  exact h

theorem Discardable.built {keeps : Prop} (h : Discardable L d vm₀ vm role₀ role) :
    Built L d vm₀ vm role₀ role₀ role keeps none :=
  ⟨.refl role₀, fun _ => rfl, fun _ => h, by simp⟩

theorem Loading.cost_eq {newsz : Nat} (h : Space L d s vm₀ vm role₀ role) (hnew : newsz < kernbase) :
    s.cost newsz = demand (vm.present d) (pages s.sz) (pages newsz - pages s.sz) := by
  have h1 := pages_le hnew.le
  have h2 := pages_le h.small.le
  exact demand_congr (by omega) h.tables

theorem Loading.keeps_iff {newsz : Nat} (h : Space L d s vm₀ vm role₀ role)
    (hnew : newsz < kernbase) : s.Keeps newsz ↔
      TablesFit (vm.present d) (pages s.sz) (pages newsz - pages s.sz) vm.freelist.length := by
  have h1 := pages_le hnew.le
  have h2 := pages_le h.small.le
  rw [h.length]
  exact ⟨fun hk => hk.congr (by omega) h.tables,
    fun hk => hk.congr (by omega) fun i hi => (h.tables i hi).symm⟩

theorem Space.starved_alloc {newsz : Nat} (h : Space L d s vm₀ vm role₀ role)
    (hnew : newsz < kernbase) (hle : s.sz ≤ newsz) (hzero : s.free = 0)
    (hwhole : s.mapped + 1 = pages s.sz ∧ s.mapped % 1024 = 0) :
    ∃ vm' role', vm.allocuvm L d s.sz newsz = .ok (vm', (s.grow newsz).elim 0 Loading.sz) ∧
      Built L d vm₀ vm' role₀ role₀ role' (s.Keeps newsz) (s.grow newsz) := by
  have hpages := pages_mono hle
  have hnil : vm.freelist = [] := List.length_eq_zero_iff.mp (h.length.trans hzero)
  rw [allocuvm_loop hnew hle]
  by_cases hsame : pages newsz = pages s.sz
  · have hk : pages newsz - pages s.sz = 0 := by omega
    have hgrow : s.grow newsz = some ⟨newsz, s.mapped, s.free⟩ := by
      rw [Loading.grow, if_neg (by omega), Loading.cost, hk, demand, if_pos (Nat.zero_le _)]
      rfl
    rw [hk, hgrow]
    refine ⟨vm, role, rfl, Space.built ⟨h.free, h.acts, h.stacked, hnew, h.mapped, h.above, h.kernel,
      h.present, h.length, ?_⟩⟩
    rw [← hsame] at hwhole
    exact .inr ⟨hzero, hwhole⟩
  · obtain ⟨k, hk⟩ : ∃ k, pages newsz - pages s.sz = k + 1 :=
      ⟨pages newsz - pages s.sz - 1, by omega⟩
    have hgrow : s.grow newsz = none := by
      have hcost := demand_pos (v := pages s.sz) s.tables (k + 1)
      have hkeeps : s.Keeps newsz := by
        rw [Loading.Keeps, hk]
        exact .inl hzero
      rw [Loading.grow, if_neg (by omega), Loading.cost, hk, if_neg (by omega),
        if_neg fun hc => hc.1 hkeeps]
    have hlt : s.sz < newsz := by
      rcases Nat.lt_or_eq_of_le hle with hlt | heq
      · exact hlt
      · rw [heq] at hsame
        exact absurd rfl hsame
    obtain ⟨vm', role', hdealloc, hu⟩ := deallocuvm_acts h.acts.exact h.dir h.stacked hnew.le hlt
    have hempty : vm.kalloc = (vm, none) := by rw [kalloc, hnil]
    rw [hk, hgrow]
    refine ⟨vm', role', ?_, Discardable.built ⟨h.free, h.acts.trans hu.acts,
      h.stacked.congr hu.present⟩⟩
    rw [allocLoop, hempty]
    simp only [hdealloc]
    rfl

theorem Space.alloc {newsz : Nat} (h : Space L d s vm₀ vm role₀ role) (hf : Fresh d vm₀ role₀)
    (hnew : newsz < kernbase) :
    ∃ vm' role₁ role', vm.allocuvm L d s.sz newsz = .ok (vm', (s.grow newsz).elim 0 Loading.sz) ∧
      Built L d vm₀ vm' role₀ role₁ role' (s.Keeps newsz) (s.grow newsz) := by
  by_cases hless : newsz < s.sz
  · have hgrow : s.grow newsz = some s := by rw [Loading.grow, if_pos hless]
    refine ⟨vm, role₀, role, ?_, hgrow ▸ h.built⟩
    rw [hgrow, allocuvm, if_neg (by omega), if_pos hless]
    rfl
  have hle : s.sz ≤ newsz := by omega
  have hpages := pages_mono hle
  rcases h.whole with hwhole | ⟨hzero, hwhole⟩
  swap
  · obtain ⟨vm', role', hcall, hb⟩ := h.starved_alloc hnew hle hzero hwhole
    exact ⟨vm', role₀, role', hcall, hb⟩
  have hcost := Loading.cost_eq h hnew
  have hlen := h.length
  by_cases hkeeps : s.Keeps newsz
  · obtain ⟨vm', role', r, hcall, hres⟩ := allocuvm_acts h.acts.exact h.dir (h.spans hwhole) hnew hle
      ((Loading.keeps_iff h hnew).mp hkeeps)
    refine ⟨vm', role₀, role', ?_⟩
    rcases hres with ⟨rfl, hext⟩ | ⟨rfl, hfail, hshort⟩
    · have hlen' := hext.length
      have hgrow : s.grow r = some ⟨r, s.mapped + (pages r - pages s.sz), s.free - s.cost r⟩ := by
        rw [Loading.grow, if_neg hless, if_pos (by omega)]
      rw [hgrow]
      obtain ⟨hm, ha, hk, hp⟩ := hext.mapped h hwhole (by omega) hnew
      exact ⟨hcall, Space.built ⟨h.free, h.acts.trans hext.acts, hext.stacked, hnew, hm, ha, hk, hp,
        show vm'.freelist.length = s.free - s.cost r by omega,
        .inl (show s.mapped + (pages r - pages s.sz) = pages r by omega)⟩⟩
    · have hgrow : s.grow newsz = none := by
        rw [Loading.grow, if_neg hless, if_neg (by omega), if_neg fun hc => hc.1 hkeeps]
      rw [hgrow]
      exact ⟨hcall, Discardable.built ⟨h.free, h.acts.trans hfail.acts, hfail.stacked⟩⟩
  · have hspans := h.spans hwhole
    obtain ⟨m, p, vm₁, vm₂, role₁, hst, _, hres⟩ := allocuvm_starves h.acts.exact h.dir hspans.above
      hnew hle (fun hfit => hkeeps ((Loading.keeps_iff h hnew).mpr hfit))
    have hs := hst.starved hspans.stacked hspans.reaches
    obtain ⟨hloses, hfree, hacts⟩ := hs.lose h hf
    have hd := h.dir
    rcases hres with ⟨hm, hdem, hcall⟩ | ⟨hdem, vm', role', hcall, _, hc⟩
    · have hgrow : s.grow newsz = some ⟨newsz, s.mapped + m, 0⟩ := by
        rw [Loading.grow, if_neg hless, if_neg (by omega), if_pos ⟨hkeeps, by omega⟩]
        rw [show s.mapped + (pages newsz - pages s.sz) - 1 = s.mapped + m by omega]
      refine ⟨vm₂, Function.update role₀ p .held, Function.update role₁ p .held, ?_, hloses,
        fun hk => absurd hk hkeeps, ?_, ?_⟩
      · rw [hgrow]
        exact hcall
      · rw [hgrow]
        simp
      · rw [hgrow]
        rintro s' ⟨⟩
        have hd₁ := hs.mapped.acts.dir hd
        obtain ⟨hmap, ha, hk, hp⟩ := hs.mapped.mapped h hwhole (by omega) hnew
        refine ⟨hfree, hacts, hs.stacked hd, hnew, ?_, ?_, ?_, ?_, ?_, .inr ⟨rfl, ?_, ?_⟩⟩
        · intro w hw
          rw [hs.took.page d hd₁]
          exact hmap w hw
        · intro w hw hle'
          rw [hs.took.page d hd₁]
          exact ha w hw hle'
        · intro w e hw he
          rw [hs.took.page d hd₁] at he
          exact hk w e hw he
        · intro i
          rw [hs.took.present d hd₁]
          exact hp i
        · rw [hs.empty]
          rfl
        · change s.mapped + m + 1 = pages newsz
          omega
        · have habs := hs.absent
          rw [← hwhole, ← Bool.not_eq_true, hp] at habs
          change (s.mapped + m) % 1024 = 0
          omega
    · have hgrow : s.grow newsz = none := by
        rw [Loading.grow, if_neg hless, if_neg (by omega), if_neg fun hk => by omega]
      have hu := hc.unmaps fun w hw _ _ hsome => (hs.stacked hd).not_skips hw hsome
      refine ⟨vm', Function.update role₀ p .held, role', ?_, hloses, fun hk => absurd hk hkeeps, ?_, ?_⟩
      · rw [hgrow]
        exact hcall
      · intro _
        exact ⟨hfree, hacts.trans hu.acts, (hs.stacked hd).congr hu.present⟩
      · rw [hgrow]
        simp

end Vm
end Xv6
