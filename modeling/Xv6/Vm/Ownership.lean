import Xv6.Vm.Basic

namespace Xv6

inductive Role where
  | reserved
  | free
  | held
  | stack (p : Nat)
  | dir
  | dying
  | table (d i : Nat)
  | frame (d v : Nat)
  deriving DecidableEq

def Role.loose : Role → Bool
  | .free | .held | .stack _ => true
  | _ => false

def Role.plain : Role → Bool
  | .free | .held | .stack _ | .frame _ _ => true
  | _ => false

namespace Vm

variable {L : Layout} {t : TwoLevel Nat Nat Nat Pte} {vm : Vm} {role : Nat → Role} {p d v i : Nat}

structure Owned (L : Layout) (t : TwoLevel Nat Nat Nat Pte) (role : Nat → Role) : Prop where
  valid : ∀ p, role p ≠ .reserved → L.kend ≤ p ∧ p < 57344
  dir : ∀ d i pt, role d = .dir → t.dir d i = some pt → role pt = .table d i
  linked : ∀ pt d i, role pt = .table d i →
    (role d = .dir ∨ role d = .dying) ∧ i < 1024 ∧ t.dir d i = some pt
  frame : ∀ pt d i j e, role pt = .table d i → i < 512 → t.leaf pt j = some e →
    role e.page = .frame d (i * 1024 + j) ∧ j < 1024

structure Ok (L : Layout) (vm : Vm) (role : Nat → Role) : Prop where
  owned : Owned L vm.tables role
  free : ∀ p, p ∈ vm.freelist ↔ role p = .free
  nodup : vm.freelist.Nodup

theorem Owned.relabel (h : Owned L t role) (hp : role p ≠ .reserved) {r : Role}
    (hr : ∀ d i, r ≠ .table d i)
    (hdir : r = .dir → ∀ i, t.dir p i = none)
    (hlink : ∀ d i, d ≠ p → role d = .dir → role p ≠ .table d i)
    (htables : r = .dying ∨ ∀ pt i, role pt ≠ .table p i)
    (hframe : ∀ pt d i j e, role pt = .table d i → i < 512 → t.leaf pt j = some e → e.page ≠ p) :
    Owned L t (Function.update role p r) := by
  refine ⟨?_, ?_, ?_, ?_⟩
  · intro q hq
    by_cases hqp : q = p
    · exact hqp ▸ h.valid p hp
    · rw [Function.update_of_ne hqp] at hq
      exact h.valid q hq
  · intro d i pt hd hpt
    by_cases hdp : d = p
    · subst hdp
      rw [Function.update_self] at hd
      simp [hdir hd] at hpt
    · rw [Function.update_of_ne hdp] at hd
      have hrole := h.dir d i pt hd hpt
      rw [Function.update_of_ne, hrole]
      rintro rfl
      exact hlink d i hdp hd hrole
  · intro pt d i hpt
    by_cases hptp : pt = p
    · subst hptp
      rw [Function.update_self] at hpt
      exact absurd hpt (hr d i)
    · rw [Function.update_of_ne hptp] at hpt
      obtain ⟨hd, hi, hl⟩ := h.linked pt d i hpt
      by_cases hdp : d = p
      · subst hdp
        rw [Function.update_self]
        exact ⟨Or.inr (htables.resolve_right fun hnone => hnone pt i hpt), hi, hl⟩
      · rw [Function.update_of_ne hdp]
        exact ⟨hd, hi, hl⟩
  · intro pt d i j e hpt hi he
    by_cases hptp : pt = p
    · subst hptp
      rw [Function.update_self] at hpt
      exact absurd hpt (hr d i)
    · rw [Function.update_of_ne hptp] at hpt
      obtain ⟨hrole, hj⟩ := h.frame pt d i j e hpt hi he
      rw [Function.update_of_ne (hframe pt d i j e hpt hi he)]
      exact ⟨hrole, hj⟩

theorem Owned.no_frame (h : Owned L t role) (hp : ∀ d v, role p ≠ .frame d v) (pt d i j : Nat)
    (e : Pte) (hpt : role pt = .table d i) (hi : i < 512) (he : t.leaf pt j = some e) :
    e.page ≠ p := by
  rintro rfl
  exact hp d _ (h.frame pt d i j e hpt hi he).1

theorem Owned.no_table (h : Owned L t role) (hp : (role p).loose = true) (pt i : Nat) :
    role pt ≠ .table p i := by
  intro hpt
  rcases (h.linked pt p i hpt).1 with hd | hd <;> simp [hd, Role.loose] at hp

theorem Owned.hand (h : Owned L t role) (hp : (role p).loose = true) {r : Role}
    (hr : r.plain = true ∨ r = .dir ∧ ∀ i, t.dir p i = none) :
    Owned L t (Function.update role p r) := by
  refine h.relabel ?_ ?_ ?_ ?_ (Or.inr (h.no_table hp)) ?_
  · intro hres
    simp [hres, Role.loose] at hp
  · rintro d i rfl
    simp [Role.plain] at hr
  · rintro rfl
    exact (hr.resolve_left (by simp [Role.plain])).2
  · intro d i _ _ hrole
    simp [hrole, Role.loose] at hp
  · refine h.no_frame fun d v hrole => ?_
    simp [hrole, Role.loose] at hp

theorem Owned.retire (h : Owned L t role) (hd : role d = .dir) :
    Owned L t (Function.update role d .dying) :=
  h.relabel (by simp [hd]) (by simp) (by simp) (by simp [hd]) (Or.inl rfl)
    (h.no_frame (by simp [hd]))

theorem Owned.dropTable (h : Owned L t role) (hp : role p = .table d i) (hd : role d = .dying) :
    Owned L t (Function.update role p .free) := by
  refine h.relabel (by simp [hp]) (by simp) (by simp) ?_ (Or.inr ?_) (h.no_frame (by simp [hp]))
  · intro d' i' _ hd' hp'
    rw [hp, Role.table.injEq] at hp'
    rw [← hp'.1, hd] at hd'
    cases hd'
  · intro pt i' hpt
    rcases (h.linked pt p i' hpt).1 with hrole | hrole <;> simp [hp] at hrole

theorem Owned.dropDir (h : Owned L t role) (hd : role d = .dying)
    (hnone : ∀ pt i, role pt ≠ .table d i) : Owned L t (Function.update role d .free) :=
  h.relabel (by simp [hd]) (by simp) (by simp) (by simp [hd]) (Or.inr hnone)
    (h.no_frame (by simp [hd]))

theorem Owned.fill (h : Owned L t role) (hp : (role p).plain = true) (x : Option Nat)
    (y : Option Pte) : Owned L (t.fill p x y) role := by
  have hne : ∀ q, (role q).plain = false → q ≠ p := by
    rintro q hq rfl
    simp [hp] at hq
  refine ⟨h.valid, ?_, ?_, ?_⟩
  · intro d i pt hd hpt
    rw [TwoLevel.dir_fill_of_ne x y (hne d (by rw [hd]; rfl))] at hpt
    exact h.dir d i pt hd hpt
  · intro pt d i hpt
    obtain ⟨hd, hi, hlink⟩ := h.linked pt d i hpt
    have hdp : d ≠ p := hne d (by rcases hd with hd | hd <;> rw [hd] <;> rfl)
    rw [TwoLevel.dir_fill_of_ne x y hdp]
    exact ⟨hd, hi, hlink⟩
  · intro pt d i j e hpt hi he
    rw [TwoLevel.leaf_fill_of_ne x y (hne pt (by rw [hpt]; rfl))] at he
    exact h.frame pt d i j e hpt hi he

theorem Owned.link (h : Owned L t role) (hd : role d = .dir) (hp : (role p).loose = true)
    (hi : i < 1024) (hnone : t.dir d i = none) (hleaf : ∀ j, t.leaf p j = none) :
    Owned L (t.link d i p) (Function.update role p (.table d i)) := by
  have hne : ∀ q, (role q).loose = false → q ≠ p := by
    rintro q hq rfl
    simp [hp] at hq
  have hdp := hne d (by rw [hd]; rfl)
  refine ⟨?_, ?_, ?_, ?_⟩
  · intro q hq
    by_cases hqp : q = p
    · subst hqp
      refine h.valid q ?_
      intro hres
      simp [hres, Role.loose] at hp
    · rw [Function.update_of_ne hqp] at hq
      exact h.valid q hq
  · intro d' i' pt hd' hpt
    have hdp' : d' ≠ p := by
      rintro rfl
      simp at hd'
    rw [Function.update_of_ne hdp'] at hd'
    rw [TwoLevel.dir_link] at hpt
    split at hpt
    · rename_i heq
      cases hpt
      rw [Function.update_self, heq.1, heq.2]
    · have hrole := h.dir d' i' pt hd' hpt
      rw [Function.update_of_ne (hne pt (by rw [hrole]; rfl)), hrole]
  · intro pt d' i' hpt
    rw [TwoLevel.dir_link]
    by_cases hptp : pt = p
    · subst hptp
      rw [Function.update_self] at hpt
      cases hpt
      rw [Function.update_of_ne hdp]
      exact ⟨Or.inl hd, hi, by simp⟩
    · rw [Function.update_of_ne hptp] at hpt
      obtain ⟨hd', hi', hlink⟩ := h.linked pt d' i' hpt
      have hdp' : d' ≠ p := hne d' (by rcases hd' with hd' | hd' <;> rw [hd'] <;> rfl)
      rw [Function.update_of_ne hdp', if_neg]
      · exact ⟨hd', hi', hlink⟩
      · rintro ⟨rfl, rfl⟩
        simp [hnone] at hlink
  · intro pt d' i' j e hpt hi' he
    by_cases hptp : pt = p
    · subst hptp
      have he' : t.leaf pt j = some e := he
      simp [hleaf] at he'
    · rw [Function.update_of_ne hptp] at hpt
      obtain ⟨hrole, hj⟩ := h.frame pt d' i' j e hpt hi' he
      rw [Function.update_of_ne (hne e.page (by rw [hrole]; rfl))]
      exact ⟨hrole, hj⟩

theorem Owned.put (h : Owned L t role) {pt j : Nat} {e : Option Pte} (hpt : role pt = .table d i)
    (he : ∀ e', e = some e' → i < 512 → role e'.page = .frame d (i * 1024 + j) ∧ j < 1024) :
    Owned L (t.put pt j e) role := by
  refine ⟨h.valid, h.dir, h.linked, ?_⟩
  intro pt' d' i' j' e' hpt' hi' he'
  rw [TwoLevel.leaf_put] at he'
  split at he'
  · rename_i heq
    obtain ⟨rfl, rfl⟩ := heq
    rw [hpt] at hpt'
    cases hpt'
    exact he e' he' hi'
  · exact h.frame pt' d' i' j' e' hpt' hi' he'

theorem Owned.map (h : Owned L t role) {pt j m : Nat} (hpt : role pt = .table d i)
    (hj : j < 1024) (hm : (role m).loose = true) (perm : Perm) :
    Owned L (t.put pt j (some ⟨m, perm⟩)) (Function.update role m (.frame d (i * 1024 + j))) := by
  have hne : pt ≠ m := by
    rintro rfl
    simp [hpt, Role.loose] at hm
  refine (h.hand hm (Or.inl rfl)).put (by rw [Function.update_of_ne hne, hpt]) ?_
  rintro e' ⟨⟩ _
  exact ⟨Function.update_self .., hj⟩

theorem Owned.frame_unique (h : Owned L t role) {pt pt' j j' d' i' : Nat} {e e' : Pte}
    (hpt : role pt = .table d i) (hi : i < 512) (he : t.leaf pt j = some e)
    (hpt' : role pt' = .table d' i') (hi' : i' < 512) (he' : t.leaf pt' j' = some e')
    (hpage : e'.page = e.page) : pt' = pt ∧ j' = j := by
  obtain ⟨hrole, hj⟩ := h.frame pt d i j e hpt hi he
  obtain ⟨hrole', hj'⟩ := h.frame pt' d' i' j' e' hpt' hi' he'
  rw [hpage, hrole, Role.frame.injEq] at hrole'
  obtain ⟨rfl, hv⟩ := hrole'
  obtain ⟨rfl, rfl⟩ : i' = i ∧ j' = j := by omega
  have hlink := (h.linked pt d i' hpt).2.2
  rw [(h.linked pt' d i' hpt').2.2, Option.some.injEq] at hlink
  exact ⟨hlink, rfl⟩

theorem Owned.unmap (h : Owned L t role) {pt j : Nat} {e : Pte} (hpt : role pt = .table d i)
    (hi : i < 512) (he : t.leaf pt j = some e) :
    Owned L (t.put pt j none) (Function.update role e.page .free) := by
  have hframe := (h.frame pt d i j e hpt hi he).1
  refine (h.put hpt (by simp)).relabel (by simp [hframe]) (by simp) (by simp) (by simp [hframe])
    (Or.inr ?_) ?_
  · intro pt' i' hpt'
    rcases (h.linked pt' e.page i' hpt').1 with hrole | hrole <;> simp [hframe] at hrole
  · intro pt' d' i' j' e' hpt' hi' he' hpage
    rw [TwoLevel.leaf_put] at he'
    split at he'
    · cases he'
    · rename_i hother
      exact hother (h.frame_unique hpt hi he hpt' hi' he' hpage)

theorem Owned.get_fill (h : Owned L t role) (hd : role d = .dir) (hp : (role p).plain = true)
    (x : Option Nat) (y : Option Pte) (i j : Nat) : (t.fill p x y).get d i j = t.get d i j := by
  refine TwoLevel.get_fill x y ?_ ?_ j
  · rintro rfl
    simp [hd, Role.plain] at hp
  · intro hlink
    simp [h.dir d i p hd hlink, Role.plain] at hp

theorem Owned.get_put (h : Owned L t role) {pt j d' i' j' : Nat} (hpt : role pt = .table d i)
    (hd : role d' = .dir) (hne : d' = d → i' = i → j' ≠ j) (e : Option Pte) :
    (t.put pt j e).get d' i' j' = t.get d' i' j' := by
  refine TwoLevel.get_put_of_ne e fun hlink => ?_
  have hrole := h.dir d' i' pt hd hlink
  rw [hpt, Role.table.injEq] at hrole
  exact hne hrole.1.symm hrole.2.symm

def page (vm : Vm) (d v : Nat) : Option Pte := vm.tables.get d (v / 1024) (v % 1024)

structure Keeps (D : Set Nat) (vm vm' : Vm) (role role' : Nat → Role) : Prop where
  dir : ∀ d ∈ D, role d = .dir → role' d = .dir ∧ ∀ v, vm'.page d v = vm.page d v
  stack : ∀ q ∈ D, ∀ p, role q = .stack p → role' q = .stack p

structure Works (L : Layout) (d : Nat) (vm vm' : Vm) (role role' : Nat → Role) : Prop where
  ok : Ok L vm' role'
  dir : role' d = .dir
  keeps : Keeps {d}ᶜ vm vm' role role'

structure Popped (vm vm' : Vm) (p : Nat) : Prop where
  freelist : vm.freelist = p :: vm'.freelist
  tables : vm'.tables = vm.tables

structure Pushed (vm vm' : Vm) (p : Nat) : Prop where
  freelist : vm'.freelist = p :: vm.freelist
  tables : vm'.tables = vm.tables.fill p (some 0x1010) (some ⟨0x1010, false, false⟩)

variable {vm' vm'' : Vm} {role' role'' : Nat → Role} {D D' : Set Nat} {r : Role}

theorem Keeps.refl (D : Set Nat) (vm : Vm) (role : Nat → Role) : Keeps D vm vm role role :=
  ⟨fun _ _ hd => ⟨hd, fun _ => rfl⟩, fun _ _ _ hq => hq⟩

theorem Keeps.trans (h : Keeps D vm vm' role role') (h' : Keeps D vm' vm'' role' role'') :
    Keeps D vm vm'' role role'' := by
  refine ⟨?_, fun q hq p hrole => h'.stack q hq p (h.stack q hq p hrole)⟩
  intro d hd hrole
  obtain ⟨hrole', hpage⟩ := h.dir d hd hrole
  obtain ⟨hrole'', hpage'⟩ := h'.dir d hd hrole'
  exact ⟨hrole'', fun v => (hpage' v).trans (hpage v)⟩

theorem Keeps.mono (h : Keeps D vm vm' role role') (hsub : D' ⊆ D) : Keeps D' vm vm' role role' :=
  ⟨fun d hd => h.dir d (hsub hd), fun q hq => h.stack q (hsub hq)⟩

theorem Keeps.univ (h : Keeps {p}ᶜ vm vm' role role') (hp : role p = .free) :
    Keeps Set.univ vm vm' role role' := by
  have hne : ∀ q, role q ≠ .free → q ∈ ({p}ᶜ : Set Nat) := by
    rintro q hq rfl
    exact hq hp
  exact ⟨fun d _ hd => h.dir d (hne d (by simp [hd])) hd,
    fun q _ s hq => h.stack q (hne q (by simp [hq])) s hq⟩

theorem Keeps.update (hp : p ∈ D → role p ≠ .dir ∧ ∀ q, role p ≠ .stack q)
    (hpage : ∀ d ∈ D, role d = .dir → ∀ v, vm'.page d v = vm.page d v) :
    Keeps D vm vm' role (Function.update role p r) := by
  refine ⟨fun d hd hrole => ⟨?_, hpage d hd hrole⟩, fun q hq s hrole => ?_⟩
  · rw [Function.update_of_ne, hrole]
    rintro rfl
    exact (hp hd).1 hrole
  · rw [Function.update_of_ne, hrole]
    rintro rfl
    exact (hp hq).2 s hrole

theorem Works.refl (h : Ok L vm role) (hd : role d = .dir) : Works L d vm vm role role :=
  ⟨h, hd, .refl _ _ _⟩

theorem Works.trans (h : Works L d vm vm' role role') (h' : Works L d vm' vm'' role' role'') :
    Works L d vm vm'' role role'' := ⟨h'.ok, h'.dir, h.keeps.trans h'.keeps⟩

theorem kalloc_none (h : vm.kalloc = (vm', none)) : vm' = vm ∧ vm.freelist = [] := by
  unfold kalloc at h
  split at h
  · rename_i hnil
    cases h
    exact ⟨rfl, hnil⟩
  · cases h

theorem kalloc_some (h : vm.kalloc = (vm', some p)) : Popped vm vm' p := by
  unfold kalloc at h
  split at h
  · cases h
  · rename_i hcons
    cases h
    exact ⟨hcons, rfl⟩

theorem Popped.page (hp : Popped vm vm' p) (d v : Nat) : vm'.page d v = vm.page d v := by
  rw [Vm.page, Vm.page, hp.tables]

theorem Popped.length (hp : Popped vm vm' p) : vm.freelist.length = vm'.freelist.length + 1 := by
  rw [hp.freelist, List.length_cons]

theorem Ok.free_of_popped (h : Ok L vm role) (hp : Popped vm vm' p) : role p = .free :=
  (h.free p).mp (by simp [hp.freelist])

theorem Ok.popped (h : Ok L vm role) (hp : Popped vm vm' p) (hr : r ≠ .free)
    (hplain : r.plain = true) : Ok L vm' (Function.update role p r) := by
  have hnodup := h.nodup
  rw [hp.freelist, List.nodup_cons] at hnodup
  refine ⟨?_, ?_, hnodup.2⟩
  · rw [hp.tables]
    exact h.owned.hand (by rw [h.free_of_popped hp]; rfl) (Or.inl hplain)
  · intro q
    by_cases hqp : q = p
    · subst hqp
      simp [hnodup.1, hr]
    · have := h.free q
      rw [hp.freelist, List.mem_cons] at this
      simpa [hqp] using this

theorem Ok.keeps_popped (h : Ok L vm role) (hp : Popped vm vm' p) :
    Keeps D vm vm' role (Function.update role p r) :=
  .update (fun _ => by simp [h.free_of_popped hp]) fun d _ _ v => hp.page d v

theorem Ok.relabel (h : Ok L vm role) (hp : role p ≠ .free) (hr : r ≠ .free)
    (howned : Owned L vm.tables (Function.update role p r)) :
    Ok L vm (Function.update role p r) := by
  refine ⟨howned, ?_, h.nodup⟩
  intro q
  by_cases hqp : q = p
  · subst hqp
    simp [hr, h.free, hp]
  · simp [hqp, h.free]

theorem Ok.zero (h : Ok L vm role) (hp : (role p).plain = true) : Ok L (vm.zero p) role :=
  ⟨h.owned.fill hp none none, h.free, h.nodup⟩

theorem Ok.page_zero (h : Ok L vm role) (hp : (role p).plain = true) (hd : role d = .dir)
    (v : Nat) : (vm.zero p).page d v = vm.page d v := h.owned.get_fill hd hp none none _ _

theorem Ok.ne_zero (h : Ok L vm role) (hp : role p ≠ .reserved) : p ≠ 0 := by
  have := h.owned.valid p hp
  have := L.kernlink_lt
  have := L.data_lt
  omega

theorem Ok.kfree (h : Ok L vm role) (hp : role p ≠ .reserved) :
    ∃ vm', vm.kfree L p = .ok vm' ∧ Pushed vm vm' p := by
  have hvalid := h.owned.valid p hp
  unfold Vm.kfree
  rw [if_neg]
  · exact ⟨_, rfl, rfl, rfl⟩
  · simp only [phystop, pgsize]
    omega

theorem Ok.pushed (h : Ok L vm role) (hp : Pushed vm vm' p) (hfree : role p ≠ .free)
    (howned : Owned L vm.tables (Function.update role p .free)) :
    Ok L vm' (Function.update role p .free) := by
  refine ⟨?_, ?_, ?_⟩
  · rw [hp.tables]
    exact howned.fill (by simp [Role.plain]) _ _
  · intro q
    rw [hp.freelist]
    by_cases hqp : q = p
    · subst hqp
      simp
    · simp [hqp, h.free]
  · rw [hp.freelist, List.nodup_cons, h.free]
    exact ⟨hfree, h.nodup⟩

theorem Pushed.keeps (hp : Pushed vm vm' p)
    (howned : Owned L vm.tables (Function.update role p .free))
    (hD : p ∈ D → role p ≠ .dir ∧ ∀ q, role p ≠ .stack q) :
    Keeps D vm vm' role (Function.update role p .free) := by
  refine .update hD fun d hd hrole v => ?_
  have hdp : d ≠ p := by
    rintro rfl
    exact (hD hd).1 hrole
  rw [page, page, hp.tables]
  exact howned.get_fill (by rwa [Function.update_of_ne hdp]) (by simp [Role.plain]) _ _ _ _

theorem Ok.free_loose (h : Ok L vm role) (hp : (role p).loose = true) (hfree : role p ≠ .free) :
    ∃ vm', vm.kfree L p = .ok vm' ∧ vm'.freelist = p :: vm.freelist ∧
      Ok L vm' (Function.update role p .free) ∧
      Keeps {p}ᶜ vm vm' role (Function.update role p .free) := by
  have hres : role p ≠ .reserved := by
    intro hres
    simp [hres, Role.loose] at hp
  obtain ⟨vm', hk, hpushed⟩ := h.kfree hres
  have howned := h.owned.hand hp (r := .free) (Or.inl rfl)
  exact ⟨vm', hk, hpushed.freelist, h.pushed hpushed hfree howned,
    hpushed.keeps howned fun h => absurd rfl h⟩

end Vm
end Xv6
