import Xv6.Vm.CopyOutcome

namespace Xv6

open Vm

structure Holding where
  kstack : Nat
  pgdir : Nat
  sz : Nat
  deriving DecidableEq, Repr

inductive Use (n : Nat) where
  | free (k : Nat)
  | stack (q : Fin n)
  | pgdir (q : Fin n)
  | table (q : Fin n) (i : Nat)
  | user (q : Fin n) (v : Nat)
  deriving DecidableEq, Repr

variable {n : Nat} {L : Layout} {managed : Nat → Prop} {vm vm' vm'' : Vm}
  {held : Fin n → Option Holding} {role role' role'' : Nat → Role} {q i : Fin n} {h : Holding}
  {p d : Nat}

def UsedFor (vm : Vm) (held : Fin n → Option Holding) (p : Nat) : Use n → Prop
  | .free k => vm.freelist[k]? = some p
  | .stack q => ∃ h, held q = some h ∧ h.kstack = p
  | .pgdir q => ∃ h, held q = some h ∧ h.pgdir = p
  | .table q i => ∃ h, held q = some h ∧ i < 1024 ∧ vm.tables.dir h.pgdir i = some p
  | .user q v => ∃ h, held q = some h ∧ v < 2 ^ 19 ∧ ∃ perm, vm.page h.pgdir v = some ⟨p, perm⟩

structure Books (L : Layout) (managed : Nat → Prop) (vm : Vm) (held : Fin n → Option Holding)
    (role : Nat → Role) : Prop where
  exact : Exact L vm role
  managed : ∀ p, role p ≠ .reserved ↔ managed p
  settled : ∀ p, role p ≠ .held ∧ role p ≠ .dying
  stack : ∀ p k, role p = .stack k ↔ ∃ q h, held q = some h ∧ k = q.val ∧ h.kstack = p
  dir : ∀ d, role d = .dir ↔ ∃ q h, held q = some h ∧ h.pgdir = d
  distinct : ∀ q q' h h', held q = some h → held q' = some h' → h.pgdir = h'.pgdir → q = q'
  spans : ∀ q h, held q = some h → Spans vm h.pgdir h.sz ∧ h.sz < kernbase

def Use.asRole (held : Fin n → Option Holding) : Use n → Role
  | .free _ => .free
  | .stack q => .stack q
  | .pgdir _ => .dir
  | .table q i => .table (((held q).map Holding.pgdir).getD 0) i
  | .user q v => .frame (((held q).map Holding.pgdir).getD 0) v

theorem Books.dir_of (hb : Books L managed vm held role) (hq : held q = some h) :
    role h.pgdir = .dir := (hb.dir _).mpr ⟨q, h, hq, rfl⟩

theorem role_of_use {u : Use n} (he : Exact L vm role)
    (hheld : ∀ q h, held q = some h → role h.kstack = .stack q ∧ role h.pgdir = .dir)
    (hu : UsedFor vm held p u) : role p = u.asRole held := by
  cases u with
  | free k => exact (he.ok.free p).mp (List.mem_of_getElem? hu)
  | stack q =>
    obtain ⟨h, hq, rfl⟩ := hu
    exact (hheld q h hq).1
  | pgdir q =>
    obtain ⟨h, hq, rfl⟩ := hu
    exact (hheld q h hq).2
  | table q i =>
    obtain ⟨h, hq, _, hlink⟩ := hu
    rw [Use.asRole, hq]
    exact he.ok.owned.dir _ i p (hheld q h hq).2 hlink
  | user q v =>
    obtain ⟨h, hq, hv, perm, hpage⟩ := hu
    rw [Use.asRole, hq]
    unfold Vm.page TwoLevel.get at hpage
    obtain ⟨pt, hlink, hleaf⟩ := Option.bind_eq_some_iff.mp hpage
    have hpt := he.ok.owned.dir _ _ pt (hheld q h hq).2 hlink
    have hframe := (he.ok.owned.frame pt _ _ _ _ hpt (by omega) hleaf).1
    rwa [show v / 1024 * 1024 + v % 1024 = v by omega] at hframe

theorem Books.role_of_use (hb : Books L managed vm held role) {u : Use n}
    (hu : UsedFor vm held p u) : role p = u.asRole held :=
  Xv6.role_of_use hb.exact
    (fun q h hq => ⟨(hb.stack _ _).mpr ⟨q, h, hq, rfl, rfl⟩, hb.dir_of hq⟩) hu

theorem unused_of_dir {d : Nat} (he : Exact L vm role) (hd : role d = .dir)
    (hheld : ∀ q h, held q = some h →
      role h.kstack = .stack q ∧ role h.pgdir = .dir ∧ h.pgdir ≠ d) (u : Use n) :
    ¬ UsedFor vm held d u := by
  intro hu
  have hrole := role_of_use he (fun q h hq => ⟨(hheld q h hq).1, (hheld q h hq).2.1⟩) hu
  rw [hd] at hrole
  cases u with
  | pgdir q =>
    obtain ⟨h, hq, hp⟩ := hu
    exact (hheld q h hq).2.2 hp
  | _ => cases hrole

theorem Books.use_of_role (hb : Books L managed vm held role) (hp : managed p) :
    ∃ u, UsedFor vm held p u := by
  have hsettled := hb.settled p
  have hmanaged := (hb.managed p).mpr hp
  cases hrole : role p with
  | reserved => exact absurd hrole hmanaged
  | held => exact absurd hrole hsettled.1
  | dying => exact absurd hrole hsettled.2
  | free =>
    obtain ⟨k, hk⟩ := List.mem_iff_getElem?.mp ((hb.exact.ok.free p).mpr hrole)
    exact ⟨.free k, hk⟩
  | stack k =>
    obtain ⟨q, h, hq, _, hk⟩ := (hb.stack p k).mp hrole
    exact ⟨.stack q, h, hq, hk⟩
  | dir =>
    obtain ⟨q, h, hq, hd⟩ := (hb.dir p).mp hrole
    exact ⟨.pgdir q, h, hq, hd⟩
  | table d i =>
    obtain ⟨hdir, hi, hlink⟩ := hb.exact.ok.owned.linked p d i hrole
    obtain ⟨q, h, hq, rfl⟩ := (hb.dir d).mp (hdir.resolve_right (hb.settled d).2)
    exact ⟨.table q i, h, hq, hi, hlink⟩
  | frame d v =>
    obtain ⟨hdir, hv, perm, hpage⟩ := hb.exact.tight p d v hrole
    obtain ⟨q, h, hq, rfl⟩ := (hb.dir d).mp hdir
    exact ⟨.user q v, h, hq, hv, perm, hpage⟩

theorem Books.use_unique (hb : Books L managed vm held role) {u u' : Use n}
    (hu : UsedFor vm held p u) (hu' : UsedFor vm held p u') : u = u' := by
  have hrole := (hb.role_of_use hu).symm.trans (hb.role_of_use hu')
  have hsame : ∀ q q' : Fin n, ∀ h h', held q = some h → held q' = some h' →
      ((held q).map Holding.pgdir).getD 0 = ((held q').map Holding.pgdir).getD 0 → q = q' := by
    intro q q' h h' hq hq' heq
    rw [hq, hq'] at heq
    exact hb.distinct q q' h h' hq hq' heq
  cases u <;> cases u' <;> simp only [Use.asRole, reduceCtorEq] at hrole
  · rename_i k k'
    obtain ⟨hk, _⟩ := List.getElem?_eq_some_iff.mp hu
    rw [(List.getElem?_inj hk hb.exact.ok.nodup).mp (hu.trans hu'.symm)]
  · rename_i q q'
    rw [Role.stack.injEq] at hrole
    rw [Fin.ext hrole]
  · rename_i q q'
    obtain ⟨h, hq, hd⟩ := hu
    obtain ⟨h', hq', hd'⟩ := hu'
    rw [hb.distinct q q' h h' hq hq' (hd.trans hd'.symm)]
  · rename_i q i q' i'
    rw [Role.table.injEq] at hrole
    obtain ⟨h, hq, _⟩ := hu
    obtain ⟨h', hq', _⟩ := hu'
    rw [hsame q q' h h' hq hq' hrole.1, hrole.2]
  · rename_i q v q' v'
    rw [Role.frame.injEq] at hrole
    obtain ⟨h, hq, _⟩ := hu
    obtain ⟨h', hq', _⟩ := hu'
    rw [hsame q q' h h' hq hq' hrole.1, hrole.2]

theorem Books.unique (hb : Books L managed vm held role) (hp : managed p) :
    ∃! u, UsedFor vm held p u := by
  obtain ⟨u, hu⟩ := hb.use_of_role hp
  exact ⟨u, hu, fun u' hu' => hb.use_unique hu' hu⟩

theorem Vm.not_belongs_dying : ¬ Belongs d .dying := by simp [Belongs]

theorem Vm.Frees.role_iff {r : Role} (hf : Frees L d vm vm' role role') (hr : ¬ Belongs d r) :
    role' p = r ↔ p ≠ d ∧ role p = r := by
  by_cases hp : p = d ∨ Belongs d (role p)
  · rw [hf.gone p hp]
    refine iff_of_false ?_ ?_
    · rintro rfl
      exact hr belongs_free
    · rintro ⟨hpd, rfl⟩
      exact hr (hp.resolve_left hpd)
  · obtain ⟨hpd, hb⟩ := not_or.mp hp
    rw [hf.kept p hpd hb, and_iff_right hpd]

theorem Vm.Spans.congr {sz : Nat} (h : Spans vm d sz) (hpres : vm'.present d = vm.present d)
    (hpage : ∀ v, vm'.page d v = vm.page d v) : Spans vm' d sz := by
  refine ⟨h.stacked.congr hpres, ?_, fun w hw hle => ?_⟩
  · unfold Reaches
    rw [hpres]
    exact h.reaches
  · rw [hpage, h.above w hw hle]

theorem held_update {x h' : Holding} : Function.update held i (some x) q = some h' ↔
    q = i ∧ h' = x ∨ q ≠ i ∧ held q = some h' := by
  by_cases hq : q = i
  · subst hq
    simp [eq_comm]
  · simp [hq]

theorem held_remove {h' : Holding} : Function.update held i none q = some h' ↔
    q ≠ i ∧ held q = some h' := by
  by_cases hq : q = i
  · subst hq
    simp
  · simp [hq]

theorem Books.same (hb : Books L managed vm held role) (he : Exact L vm' role)
    (hs : SameDirs vm vm' role) : Books L managed vm' held role := by
  refine ⟨he, hb.managed, hb.settled, hb.stack, hb.dir, hb.distinct, fun q h hq => ?_⟩
  obtain ⟨hspans, hsz⟩ := hb.spans q h hq
  obtain ⟨hpres, hpage⟩ := hs h.pgdir (hb.dir_of hq)
  exact ⟨hspans.congr hpres hpage, hsz⟩

theorem Books.ne_of_held (hb : Books L managed vm held role) (hi : held i = some h) {h' : Holding}
    (hq : held q = some h') (hne : q ≠ i) : h'.pgdir ≠ h.pgdir := fun heq =>
  hne (hb.distinct q i h' h hq hi heq)

theorem Books.distinct_update (hb : Books L managed vm held role) {x : Holding}
    (hx : ∀ q h', q ≠ i → held q = some h' → h'.pgdir ≠ x.pgdir) (q q' : Fin n) (h h' : Holding)
    (hq : Function.update held i (some x) q = some h)
    (hq' : Function.update held i (some x) q' = some h') (heq : h.pgdir = h'.pgdir) : q = q' := by
  rcases held_update.mp hq with ⟨rfl, rfl⟩ | ⟨hqi, hq₁⟩ <;>
    rcases held_update.mp hq' with ⟨rfl, rfl⟩ | ⟨hqi', hq₂⟩
  · rfl
  · exact absurd heq.symm (hx q' h' hqi' hq₂)
  · exact absurd heq (hx q h hqi hq₁)
  · exact hb.distinct q q' h h' hq₁ hq₂ heq

theorem exists_update {x : Holding} {P : Fin n → Holding → Prop} (hi : held i = some h)
    (hP : P i x ↔ P i h) :
    (∃ q h', Function.update held i (some x) q = some h' ∧ P q h') ↔
      ∃ q h', held q = some h' ∧ P q h' := by
  constructor
  · rintro ⟨q, h', hq, hp⟩
    rcases held_update.mp hq with ⟨rfl, rfl⟩ | ⟨_, hq⟩
    · exact ⟨q, h, hi, hP.mp hp⟩
    · exact ⟨q, h', hq, hp⟩
  · rintro ⟨q, h', hq, hp⟩
    by_cases hqi : q = i
    · subst hqi
      rw [hi, Option.some.injEq] at hq
      subst hq
      exact ⟨q, x, held_update.mpr (.inl ⟨rfl, rfl⟩), hP.mpr hp⟩
    · exact ⟨q, h', held_update.mpr (.inr ⟨hqi, hq⟩), hp⟩

theorem Books.resize (hb : Books L managed vm held role) (hi : held i = some h) {sz : Nat}
    (ha : Acts L h.pgdir vm vm' role role') (hspans : Spans vm' h.pgdir sz) (hsz : sz < kernbase) :
    Books L managed vm' (Function.update held i (some { h with sz := sz })) role' := by
  have hkeeps : ∀ {p r}, ¬ Belongs h.pgdir r → (role' p = r ↔ role p = r) :=
    fun hr => ha.moves.keeps hr
  refine ⟨ha.exact, fun p => ?_, fun p => ?_, fun p k => ?_, fun d => ?_, ?_, ?_⟩
  · rw [ne_eq, hkeeps not_belongs_reserved]
    exact hb.managed p
  · rw [ne_eq, ne_eq, hkeeps not_belongs_held, hkeeps not_belongs_dying]
    exact hb.settled p
  · rw [hkeeps (not_belongs_stack k), hb.stack]
    exact (exists_update hi (by rfl)).symm
  · rw [hkeeps not_belongs_dir, hb.dir]
    exact (exists_update hi (by rfl)).symm
  · exact hb.distinct_update fun q h' hqi hq => hb.ne_of_held hi hq hqi
  · intro q h' hq
    rcases held_update.mp hq with ⟨rfl, rfl⟩ | ⟨hqi, hq⟩
    · exact ⟨hspans, hsz⟩
    · obtain ⟨hspans', hsz'⟩ := hb.spans q h' hq
      obtain ⟨hpres, hpage⟩ := ha.dirs _ (hb.ne_of_held hi hq hqi) (hb.dir_of hq)
      exact ⟨hspans'.congr hpres hpage, hsz'⟩

theorem Books.add (hb : Books L managed vm held role) (hi : held i = none) {ks sz : Nat}
    (hks : role ks = .free) (hsame : SameDirs vm vm' role)
    (hd : Function.update role ks (.stack i) d = .free)
    (ha : Acts L d vm' vm'' (Function.update (Function.update role ks (.stack i)) d .dir) role'')
    (hspans : Spans vm'' d sz) (hsz : sz < kernbase) :
    Books L managed vm'' (Function.update held i (some ⟨ks, d, sz⟩)) role'' := by
  have hne : d ≠ ks := by
    rintro rfl
    simp at hd
  have hfree : role d = .free := by rwa [Function.update_of_ne hne] at hd
  have hkeeps : ∀ {p r}, ¬ Belongs d r → (role'' p = r ↔
      Function.update (Function.update role ks (.stack i)) d .dir p = r) :=
    fun hr => ha.moves.keeps hr
  have hother : ∀ {p r}, r ≠ .free → r ≠ .dir → (∀ k, r ≠ .stack k) → ¬ Belongs d r →
      (role'' p = r ↔ role p = r) := by
    intro p r h1 h2 h3 hr
    rw [hkeeps hr, Function.update_apply, Function.update_apply]
    split
    · rename_i hp
      rw [hp, hfree]
      exact iff_of_false (Ne.symm h2) (Ne.symm h1)
    · split
      · rename_i hp
        rw [hp, hks]
        exact iff_of_false (Ne.symm (h3 i)) (Ne.symm h1)
      · rfl
  refine ⟨ha.exact, fun p => ?_, fun p => ?_, fun p k => ?_, fun e => ?_, ?_, ?_⟩
  · rw [ne_eq, hother (by simp) (by simp) (by simp) not_belongs_reserved]
    exact hb.managed p
  · rw [ne_eq, ne_eq, hother (by simp) (by simp) (by simp) not_belongs_held,
      hother (by simp) (by simp) (by simp) not_belongs_dying]
    exact hb.settled p
  · rw [hkeeps (not_belongs_stack k), Function.update_apply, Function.update_apply]
    constructor
    · intro hp
      split at hp
      · cases hp
      · split at hp
        · rename_i hp'
          cases hp
          exact ⟨i, _, held_update.mpr (.inl ⟨rfl, rfl⟩), rfl, hp'.symm⟩
        · obtain ⟨q, h', hq, hk, hp⟩ := (hb.stack p k).mp hp
          refine ⟨q, h', held_update.mpr (.inr ⟨?_, hq⟩), hk, hp⟩
          rintro rfl
          simp [hi] at hq
    · rintro ⟨q, h', hq, rfl, rfl⟩
      rcases held_update.mp hq with ⟨rfl, rfl⟩ | ⟨_, hq⟩
      · rw [if_neg hne.symm, if_pos rfl]
      · have hrole := (hb.stack h'.kstack q).mpr ⟨q, h', hq, rfl, rfl⟩
        rw [if_neg, if_neg, hrole]
        · rintro heq
          simp [heq, hks] at hrole
        · rintro heq
          simp [heq, hfree] at hrole
  · rw [hkeeps not_belongs_dir, Function.update_apply, Function.update_apply]
    constructor
    · intro he
      split at he
      · rename_i hed
        exact ⟨i, _, held_update.mpr (.inl ⟨rfl, rfl⟩), hed.symm⟩
      · split at he
        · cases he
        · obtain ⟨q, h', hq, he⟩ := (hb.dir e).mp he
          refine ⟨q, h', held_update.mpr (.inr ⟨?_, hq⟩), he⟩
          rintro rfl
          simp [hi] at hq
    · rintro ⟨q, h', hq, rfl⟩
      rcases held_update.mp hq with ⟨rfl, rfl⟩ | ⟨_, hq⟩
      · rw [if_pos rfl]
      · have hrole := hb.dir_of hq
        split
        · rfl
        · rw [if_neg, hrole]
          rintro heq
          simp [heq, hks] at hrole
  · refine hb.distinct_update fun q h' _ hq heq => ?_
    have hrole := hb.dir_of hq
    simp [heq, hfree] at hrole
  · intro q h' hq
    rcases held_update.mp hq with ⟨rfl, rfl⟩ | ⟨_, hq⟩
    · exact ⟨hspans, hsz⟩
    · obtain ⟨hspans', hsz'⟩ := hb.spans q h' hq
      have hrole := hb.dir_of hq
      have h1 : h'.pgdir ≠ d := by
        rintro heq
        simp [heq, hfree] at hrole
      have h2 : h'.pgdir ≠ ks := by
        rintro heq
        simp [heq, hks] at hrole
      obtain ⟨hpres, hpage⟩ := hsame _ hrole
      obtain ⟨hpres', hpage'⟩ := ha.dirs _ h1 (by
        rw [Function.update_of_ne h1, Function.update_of_ne h2, hrole])
      exact ⟨(hspans'.congr hpres hpage).congr hpres' hpage', hsz'⟩

theorem Books.remove (hb : Books L managed vm held role) (hi : held i = some h)
    (hsame : SameDirs vm vm' role)
    (hf : Frees L h.pgdir vm' vm'' (Function.update role h.kstack .free) role'') :
    Books L managed vm'' (Function.update held i none) role'' := by
  have hks : role h.kstack = .stack i := (hb.stack _ _).mpr ⟨i, h, hi, rfl, rfl⟩
  have hdir := hb.dir_of hi
  have hkeeps : ∀ {p r}, ¬ Belongs h.pgdir r → (role'' p = r ↔
      p ≠ h.pgdir ∧ p ≠ h.kstack ∧ role p = r) := by
    intro p r hr
    rw [hf.role_iff hr, Function.update_apply]
    refine and_congr_right fun _ => ?_
    split
    · rename_i hp
      refine iff_of_false ?_ fun hc => hc.1 hp
      rintro rfl
      exact hr belongs_free
    · rename_i hp
      rw [and_iff_right hp]
  have hother : ∀ {p r}, r ≠ .dir → (∀ k, r ≠ .stack k) → ¬ Belongs h.pgdir r →
      (role'' p = r ↔ role p = r) := by
    intro p r h1 h2 hr
    rw [hkeeps hr]
    refine ⟨fun hc => hc.2.2, fun hp => ⟨?_, ?_, hp⟩⟩
    · rintro rfl
      exact h1 (hp.symm.trans hdir)
    · rintro rfl
      exact h2 i (hp.symm.trans hks)
  refine ⟨hf.exact, fun p => ?_, fun p => ?_, fun p k => ?_, fun e => ?_, ?_, ?_⟩
  · rw [ne_eq, hother (by simp) (by simp) not_belongs_reserved]
    exact hb.managed p
  · rw [ne_eq, ne_eq, hother (by simp) (by simp) not_belongs_held,
      hother (by simp) (by simp) not_belongs_dying]
    exact hb.settled p
  · rw [hkeeps (not_belongs_stack k), hb.stack]
    constructor
    · rintro ⟨_, hp, q, h', hq, hk, hp'⟩
      refine ⟨q, h', held_remove.mpr ⟨?_, hq⟩, hk, hp'⟩
      rintro rfl
      rw [hi] at hq
      cases hq
      exact hp hp'.symm
    · rintro ⟨q, h', hq, rfl, rfl⟩
      obtain ⟨hqi, hq⟩ := held_remove.mp hq
      have hrole := (hb.stack h'.kstack q).mpr ⟨q, h', hq, rfl, rfl⟩
      refine ⟨?_, ?_, q, h', hq, rfl, rfl⟩
      · rintro heq
        simp [heq, hdir] at hrole
      · rintro heq
        rw [heq, hks, Role.stack.injEq] at hrole
        exact hqi (Fin.ext hrole.symm)
  · rw [hkeeps not_belongs_dir, hb.dir]
    constructor
    · rintro ⟨he, _, q, h', hq, he'⟩
      refine ⟨q, h', held_remove.mpr ⟨?_, hq⟩, he'⟩
      rintro rfl
      rw [hi] at hq
      cases hq
      exact he he'.symm
    · rintro ⟨q, h', hq, rfl⟩
      obtain ⟨hqi, hq⟩ := held_remove.mp hq
      refine ⟨hb.ne_of_held hi hq hqi, ?_, q, h', hq, rfl⟩
      rintro heq
      have hrole := hb.dir_of hq
      simp [heq, hks] at hrole
  · intro q q' h₁ h₂ hq hq' heq
    exact hb.distinct q q' h₁ h₂ (held_remove.mp hq).2 (held_remove.mp hq').2 heq
  · intro q h' hq
    obtain ⟨hqi, hq⟩ := held_remove.mp hq
    obtain ⟨hspans', hsz'⟩ := hb.spans q h' hq
    have hrole := hb.dir_of hq
    have h2 : h'.pgdir ≠ h.kstack := by
      rintro heq
      simp [heq, hks] at hrole
    obtain ⟨hpres, hpage⟩ := hsame _ hrole
    obtain ⟨hpres', hpage'⟩ := hf.dirs _ (hb.ne_of_held hi hq hqi) (by
      rw [Function.update_of_ne h2, hrole])
    exact ⟨(hspans'.congr hpres hpage).congr hpres' hpage', hsz'⟩

theorem Books.replace (hb : Books L managed vm held role) (hi : held i = some h) {sz : Nat}
    (hd : role d = .free) (ha : Acts L d vm vm' (Function.update role d .dir) role')
    (hspans : Spans vm' d sz) (hsz : sz < kernbase) (hf : Frees L h.pgdir vm' vm'' role' role'') :
    Books L managed vm'' (Function.update held i (some { h with pgdir := d, sz := sz })) role'' := by
  have hdir := hb.dir_of hi
  have hne : h.pgdir ≠ d := by
    rintro heq
    simp [heq, hd] at hdir
  have hkeeps : ∀ {p r}, ¬ Belongs d r → ¬ Belongs h.pgdir r → (role'' p = r ↔
      p ≠ h.pgdir ∧ Function.update role d .dir p = r) := by
    intro p r hr hr'
    rw [hf.role_iff hr', ha.moves.keeps hr]
  have hother : ∀ {p r}, r ≠ .free → r ≠ .dir → ¬ Belongs d r → ¬ Belongs h.pgdir r →
      (role'' p = r ↔ role p = r) := by
    intro p r h1 h2 hr hr'
    rw [hkeeps hr hr', Function.update_apply]
    split
    · rename_i hp
      rw [hp, hd]
      exact iff_of_false (fun hc => h2 hc.2.symm) (Ne.symm h1)
    · refine ⟨And.right, fun hp => ⟨?_, hp⟩⟩
      rintro rfl
      exact h2 (hp.symm.trans hdir)
  refine ⟨hf.exact, fun p => ?_, fun p => ?_, fun p k => ?_, fun e => ?_, ?_, ?_⟩
  · rw [ne_eq, hother (by simp) (by simp) not_belongs_reserved not_belongs_reserved]
    exact hb.managed p
  · rw [ne_eq, ne_eq, hother (by simp) (by simp) not_belongs_held not_belongs_held,
      hother (by simp) (by simp) not_belongs_dying not_belongs_dying]
    exact hb.settled p
  · rw [hother (by simp) (by simp) (not_belongs_stack k) (not_belongs_stack k), hb.stack]
    exact (exists_update hi (by rfl)).symm
  · rw [hkeeps not_belongs_dir not_belongs_dir, Function.update_apply]
    constructor
    · rintro ⟨he, hrole⟩
      split at hrole
      · rename_i hed
        exact ⟨i, _, held_update.mpr (.inl ⟨rfl, rfl⟩), hed.symm⟩
      · obtain ⟨q, h', hq, he'⟩ := (hb.dir e).mp hrole
        refine ⟨q, h', held_update.mpr (.inr ⟨?_, hq⟩), he'⟩
        rintro rfl
        rw [hi] at hq
        cases hq
        exact he he'.symm
    · rintro ⟨q, h', hq, rfl⟩
      rcases held_update.mp hq with ⟨rfl, rfl⟩ | ⟨hqi, hq⟩
      · exact ⟨hne.symm, if_pos rfl⟩
      · refine ⟨hb.ne_of_held hi hq hqi, ?_⟩
        split
        · rfl
        · exact hb.dir_of hq
  · refine hb.distinct_update fun q h' _ hq heq => ?_
    have hrole := hb.dir_of hq
    simp [heq, hd] at hrole
  · intro q h' hq
    rcases held_update.mp hq with ⟨rfl, rfl⟩ | ⟨hqi, hq⟩
    · obtain ⟨hpres, hpage⟩ := hf.dirs d hne.symm (ha.dir (Function.update_self ..))
      exact ⟨hspans.congr hpres hpage, hsz⟩
    · obtain ⟨hspans', hsz'⟩ := hb.spans q h' hq
      have hrole := hb.dir_of hq
      have h1 : h'.pgdir ≠ d := by
        rintro heq
        simp [heq, hd] at hrole
      have hrole' : Function.update role d .dir h'.pgdir = .dir := by
        rw [Function.update_of_ne h1, hrole]
      obtain ⟨hpres, hpage⟩ := ha.dirs _ h1 hrole'
      obtain ⟨hpres', hpage'⟩ := hf.dirs _ (hb.ne_of_held hi hq hqi) (ha.dir hrole')
      exact ⟨(hspans'.congr hpres hpage).congr hpres' hpage', hsz'⟩

end Xv6
