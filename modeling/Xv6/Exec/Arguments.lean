import Xv6.Exec.Copyout
import Xv6.Exec.Safe

namespace Xv6
namespace Vm

variable {L : Layout} {vm vm' vm'' vm₀ : Vm} {role role' role₀ : Nat → Role} {d a va sp top : Nat}
  {bs : List UInt8}

def peek (vm : Vm) (d a : Nat) : Option UInt8 :=
  match vm.page d (a / pgsize) with
  | some e => if e.perm.u then some (vm.data e.page (a % pgsize)) else none
  | none => none

def loadWord (vm : Vm) (d a : Nat) : Option Nat := do
  let b₀ ← vm.peek d a
  let b₁ ← vm.peek d (a + 1)
  let b₂ ← vm.peek d (a + 2)
  let b₃ ← vm.peek d (a + 3)
  pure (b₀.toNat + 256 * (b₁.toNat + 256 * (b₂.toNat + 256 * b₃.toNat)))

def Holds (vm : Vm) (d a : Nat) (bs : List UInt8) : Prop :=
  ∀ k < bs.length, vm.peek d (a + k) = bs[k]?

theorem Holds.append {cs : List UInt8} (h : Holds vm d a (bs ++ cs)) :
    Holds vm d a bs ∧ Holds vm d (a + bs.length) cs := by
  constructor
  · intro k hk
    rw [h k (by rw [List.length_append]; omega), List.getElem?_append_left hk]
  · intro k hk
    rw [Nat.add_assoc, h _ (by rw [List.length_append]; omega),
      List.getElem?_append_right (Nat.le_add_right _ _), Nat.add_sub_cancel_left]

theorem Holds.congr (h : Holds vm d a bs)
    (heq : ∀ k < bs.length, vm'.peek d (a + k) = vm.peek d (a + k)) : Holds vm' d a bs := by
  intro k hk
  rw [heq k hk, h k hk]

theorem Holds.loadWord {x : Nat} (h : Holds vm d a (wordBytes x)) (hx : x < 2 ^ 32) :
    vm.loadWord d a = some x := by
  have hlen : (wordBytes x).length = 4 := rfl
  have h₀ : vm.peek d a = some (.ofNat x) := h 0 (by omega)
  have h₁ : vm.peek d (a + 1) = some (.ofNat (x / 256)) := h 1 (by omega)
  have h₂ : vm.peek d (a + 2) = some (.ofNat (x / 256 ^ 2)) := h 2 (by omega)
  have h₃ : vm.peek d (a + 3) = some (.ofNat (x / 256 ^ 3)) := h 3 (by omega)
  simp only [Vm.loadWord, h₀, h₁, h₂, h₃, Option.bind_eq_bind, Option.bind_some, Option.pure_def,
    UInt8.toNat_ofNat', Option.some.injEq]
  omega

theorem Writes.peek_inside {n : Nat} (h : Writes d va n bs vm vm') (hn : n ≤ bs.length)
    (hlow : va ≤ a) (hhigh : a < va + n) (hu : UserPage vm d (a / pgsize)) :
    vm'.peek d a = bs[a - va]? := by
  obtain ⟨e, he, hu⟩ := hu
  have hbytes := h.bytes (a / pgsize) e (a % pgsize) (Nat.mod_lt _ (by decide)) he hu
  rw [Nat.div_add_mod' a pgsize, if_pos ⟨hlow, hhigh⟩] at hbytes
  rw [peek, h.same.page, he]
  simp only [hu, if_true, hbytes]
  rw [List.getD_eq_getElem?_getD, List.getElem?_eq_getElem (by omega)]
  rfl

theorem Writes.peek_outside {n : Nat} (h : Writes d va n bs vm vm')
    (ha : ¬ (va ≤ a ∧ a < va + n)) : vm'.peek d a = vm.peek d a := by
  rw [peek, peek, h.same.page]
  cases he : vm.page d (a / pgsize) with
  | none => rfl
  | some e =>
    dsimp only
    split_ifs with hu
    · have hbytes := h.bytes (a / pgsize) e (a % pgsize) (Nat.mod_lt _ (by decide)) he hu
      rw [Nat.div_add_mod' a pgsize, if_neg ha] at hbytes
      rw [hbytes]
    · rfl

structure Copied (vm vm' vm'' : Vm) (d va : Nat) (bs : List UInt8) : Prop where
  same : SameTables vm vm''
  holds : Holds vm'' d va bs
  frame : ∀ a, ¬ (va ≤ a ∧ a < va + bs.length) → vm''.peek d a = vm'.peek d a

theorem StackSpace.dir {mapped : Nat} (h : StackSpace L d mapped top vm₀ vm role₀ role) :
    role d = .dir := h.acts.dir (Function.update_self ..)

theorem copyout_stack (h : StackSpace L d (pages top) top vm₀ vm role₀ role)
    (hs : SameTables vm vm') (va : Nat) (hne : bs ≠ []) (hva : va + bs.length ≤ top)
    (hguard : top - 2 * pgsize < va + bs.length) :
    top - pgsize ≤ va ∧ (∃ vm'', vm'.copyout d va bs = .ok (vm'', true) ∧
        Copied vm vm' vm'' d va bs) ∨
      va < top - pgsize ∧ ∃ vm'', vm'.copyout d va bs = .ok (vm'', false) ∧ SameTables vm vm'' := by
  obtain ⟨k, hk, hlt⟩ := h.size
  obtain ⟨vm₁, copied, hcopy, hs₁, hres, htop⟩ := copyoutLoop_user h bs.length hs le_rfl hva
    (.inl rfl)
  cases copied with
  | false =>
    refine .inr ⟨?_, vm₁, hcopy, hs₁⟩
    by_contra hge
    exact absurd (htop (by omega)) Bool.false_ne_true
  | true =>
    refine .inl ⟨(hres rfl hne).resolve_right (by omega), vm₁, hcopy, ?_⟩
    obtain ⟨n, hn, hbelow, hw⟩ := copyoutLoop_writes h.acts.exact h.dir h.kernel bs.length hs le_rfl
      (show va < 2 ^ 32 by simp only [kernbase] at hlt; omega)
    rw [hcopy] at hw
    rcases hw with ⟨rfl, vm₂, heq, hw⟩ | ⟨_, _, hfound, hmissing⟩
    · cases heq
      refine ⟨hs₁, fun i hi => ?_, fun a ha => hw.peek_outside ha⟩
      obtain ⟨e, he, hu⟩ := hbelow (va + i) (Nat.le_add_right va i) (by omega)
      rw [← hs.page] at he
      rw [hw.peek_inside le_rfl (Nat.le_add_right va i) (by omega) ⟨e, he, hu⟩,
        Nat.add_sub_cancel_left]
    · cases hpres : vm.present d ((va + n) / pgsize / 1024) with
      | true =>
        obtain ⟨_, heq, _⟩ := hfound hpres
        cases heq
      | false => cases hmissing hpres

def pushDown (sp : Nat) (arg : List UInt8) : Nat := (sp - (arg.length + 1)) / 4 * 4

def pushedAt : Nat → List (List UInt8) → List Nat
  | _, [] => []
  | sp, arg :: argv => pushDown sp arg :: pushedAt (pushDown sp arg) argv

def lowest (sp : Nat) (argv : List (List UInt8)) : Nat := argv.foldl pushDown sp

def Unwrapped : Nat → List (List UInt8) → Prop
  | _, [] => True
  | sp, arg :: argv => arg.length + 1 ≤ sp ∧ Unwrapped (pushDown sp arg) argv

theorem pushDown_le (sp : Nat) (arg : List UInt8) : pushDown sp arg ≤ sp := by
  unfold pushDown
  omega

theorem lowest_le (argv : List (List UInt8)) : ∀ sp, lowest sp argv ≤ sp := by
  induction argv with
  | nil => exact fun sp => le_rfl
  | cons arg argv ih => exact fun sp => (ih _).trans (pushDown_le sp arg)

theorem pushString_eq {arg : List UInt8} (h : arg.length + 1 ≤ sp) (hsp : sp < 2 ^ 32) :
    pushString sp arg.length = pushDown sp arg := by
  unfold pushString pushDown uint
  omega

theorem pushedAt_length (argv : List (List UInt8)) :
    ∀ sp, (pushedAt sp argv).length = argv.length := by
  induction argv with
  | nil => exact fun _ => rfl
  | cons arg argv ih =>
    intro sp
    rw [pushedAt, List.length_cons, ih, List.length_cons]

def HoldsAll (vm : Vm) (d : Nat) (argv : List (List UInt8)) (ptrs : List Nat) : Prop :=
  List.Forall₂ (fun arg p => Holds vm d p (arg ++ [0])) argv ptrs

theorem pushArgs_holds (h : StackSpace L d (pages top) top vm₀ vm role₀ role)
    (argv : List (List UInt8)) : ∀ {vm' : Vm} (ustack : List Nat) {sp : Nat}, SameTables vm vm' →
    Unwrapped sp argv → ustack.length + argv.length ≤ maxarg → top - pgsize ≤ sp → sp ≤ top →
    (top - pgsize ≤ lowest sp argv ∧ ∃ vm'',
        pushArgs d argv vm' ustack sp =
          .ok (vm'', some (ustack ++ pushedAt sp argv, lowest sp argv)) ∧
        SameTables vm vm'' ∧ (∀ a, sp ≤ a → vm''.peek d a = vm'.peek d a) ∧
        HoldsAll vm'' d argv (pushedAt sp argv)) ∨
      lowest sp argv < top - pgsize ∧ ∃ vm'', pushArgs d argv vm' ustack sp = .ok (vm'', none) ∧
        SameTables vm vm'' := by
  obtain ⟨k, hk, hlt⟩ := h.size
  have htop : 2 * pgsize ≤ top := by
    simp only [pgsize] at hk ⊢
    omega
  induction argv with
  | nil =>
    intro vm' ustack sp hs _ _ hlow _
    refine .inl ⟨hlow, vm', ?_, hs, fun _ _ => rfl, .nil⟩
    rw [pushedAt, List.append_nil]
    rfl
  | cons arg argv ih =>
    intro vm' ustack sp hs hwrap hmax hlow hhigh
    obtain ⟨hfits, hwrap⟩ := hwrap
    have hsp : sp < 2 ^ 32 := by
      simp only [kernbase] at hlt
      omega
    have hbytes : (arg ++ [0]).length = arg.length + 1 := List.length_append
    have hdown : pushDown sp arg + (arg.length + 1) ≤ sp ∧
        sp ≤ pushDown sp arg + (arg.length + 1) + 3 := by
      unfold pushDown
      omega
    have hlowest : lowest sp (arg :: argv) = lowest (pushDown sp arg) argv := rfl
    rw [List.length_cons] at hmax
    rw [pushArgs, if_neg (by omega)]
    dsimp only
    rw [pushString_eq hfits hsp, hlowest, pushedAt]
    rcases copyout_stack h hs (pushDown sp arg) (show arg ++ [0] ≠ [] by simp) (by omega)
      (by simp only [pgsize] at *; omega) with ⟨hin, vm₁, hcopy, hcopied⟩ | ⟨hout, vm₁, hcopy, hs₁⟩
    · rw [bind_ok hcopy]
      simp only [if_true]
      have hrest := ih (ustack ++ [pushDown sp arg]) hcopied.same hwrap
        (by rw [List.length_append, List.length_singleton]; omega) hin (by omega)
      rw [List.append_assoc, List.singleton_append] at hrest
      refine hrest.imp_left ?_
      rintro ⟨hle, vm₂, hpush, hs₂, hframe, hall⟩
      refine ⟨hle, vm₂, hpush, hs₂, ?_, ?_⟩
      · intro a ha
        rw [hframe a (by omega), hcopied.frame a (by omega)]
      · exact .cons (hcopied.holds.congr fun i _ => hframe _ (Nat.le_add_right _ i)) hall
    · have := lowest_le argv (pushDown sp arg)
      rw [bind_ok hcopy]
      exact .inr ⟨by omega, vm₁, rfl, hs₁⟩

theorem HoldsAll.congr (argv : List (List UInt8)) : ∀ {sp : Nat}, Unwrapped sp argv →
    HoldsAll vm d argv (pushedAt sp argv) →
    (∀ a, lowest sp argv ≤ a → a < sp → vm'.peek d a = vm.peek d a) →
    HoldsAll vm' d argv (pushedAt sp argv) := by
  induction argv with
  | nil => exact fun _ _ _ => .nil
  | cons arg argv ih =>
    intro sp ⟨hfits, hwrap⟩ hall heq
    have hdown : pushDown sp arg + (arg.length + 1) ≤ sp := by
      unfold pushDown
      omega
    have hlowest : lowest sp (arg :: argv) = lowest (pushDown sp arg) argv := rfl
    have hle := lowest_le argv (pushDown sp arg)
    rw [hlowest] at heq
    rw [pushedAt] at hall ⊢
    cases hall with
    | cons hfirst hrest =>
      refine .cons (hfirst.congr fun i hi => heq _ (by omega) ?_) (ih hwrap hrest fun a hlow ha =>
        heq a hlow (by omega))
      rw [List.length_append, List.length_singleton] at hi
      omega

def frameWords (args : List Nat) (sp : Nat) : List Nat :=
  [0xffffffff, args.length, sp - 4 * (args.length + 1)] ++ args ++ [0]

theorem frameWords_length (args : List Nat) (sp : Nat) :
    (frameWords args sp).length = args.length + 4 := by
  simp [frameWords]

theorem pushFrame_holds (h : StackSpace L d (pages top) top vm₀ vm role₀ role)
    (hs : SameTables vm vm') {args : List Nat} (hmax : args.length ≤ maxarg)
    (hlow : top - pgsize ≤ sp) (hhigh : sp ≤ top) :
    (top - pgsize + 4 * (args.length + 4) ≤ sp ∧ ∃ vm'',
        vm'.pushFrame d args sp = .ok (vm'', some (sp - 4 * (args.length + 4))) ∧
        Copied vm vm' vm'' d (sp - 4 * (args.length + 4))
          ((frameWords args sp).flatMap wordBytes)) ∨
      sp < top - pgsize + 4 * (args.length + 4) ∧ ∃ vm'',
        vm'.pushFrame d args sp = .ok (vm'', none) ∧ SameTables vm vm'' := by
  obtain ⟨k, hk, hlt⟩ := h.size
  have hroom : 4 * (args.length + 4) ≤ sp ∧ sp < 2 ^ 32 ∧ 2 * pgsize ≤ top := by
    simp only [pgsize, kernbase, maxarg] at *
    omega
  have hsp : uint (sp + (2 ^ 32 - (3 + args.length + 1) * 4)) = sp - 4 * (args.length + 4) := by
    unfold uint
    omega
  have harray : uint (sp + (2 ^ 32 - (args.length + 1) * 4)) = sp - 4 * (args.length + 1) := by
    unfold uint
    omega
  have hlen : ((frameWords args sp).flatMap wordBytes).length = 4 * (args.length + 4) := by
    rw [flatMap_wordBytes, frameWords_length]
  have hne : (frameWords args sp).flatMap wordBytes ≠ [] := by
    intro hnil
    rw [hnil, List.length_nil] at hlen
    omega
  unfold pushFrame
  dsimp only
  rw [hsp, harray]
  change (_ ∧ ∃ vm'', (vm'.copyout d _ ((frameWords args sp).flatMap wordBytes) >>= _) = _ ∧ _) ∨
    _ ∧ ∃ vm'', (vm'.copyout d _ ((frameWords args sp).flatMap wordBytes) >>= _) = _ ∧ _
  rcases copyout_stack h hs (sp - 4 * (args.length + 4)) hne (by omega)
    (by simp only [pgsize] at *; omega) with ⟨hin, vm₁, hcopy, hcopied⟩ | ⟨hout, vm₁, hcopy, hs₁⟩
  · rw [bind_ok hcopy]
    exact .inl ⟨by simp only [pgsize] at *; omega, vm₁, rfl, hcopied⟩
  · rw [bind_ok hcopy]
    exact .inr ⟨by simp only [pgsize] at *; omega, vm₁, rfl, hs₁⟩

theorem Holds.words {ws : List Nat} (h : Holds vm d a (ws.flatMap wordBytes)) {i w : Nat}
    (hi : ws[i]? = some w) (hw : w < 2 ^ 32) : vm.loadWord d (a + 4 * i) = some w := by
  induction ws generalizing a i with
  | nil => cases hi
  | cons x ws ih =>
    rw [List.flatMap_cons] at h
    obtain ⟨hfirst, hrest⟩ := h.append
    cases i with
    | zero =>
      cases hi
      exact hfirst.loadWord hw
    | succ i =>
      have hnext := ih hrest hi
      rw [show (wordBytes x).length = 4 from rfl] at hnext
      rw [← hnext]
      congr 1
      omega

def Apart (x y : Nat × Nat) : Prop := x.1 + x.2 ≤ y.1 ∨ y.1 + y.2 ≤ x.1

def strings (argv : List (List UInt8)) (ptrs : List Nat) : List (Nat × Nat) :=
  List.zipWith (fun arg p => (p, arg.length + 1)) argv ptrs

def objects (esp array : Nat) (argv : List (List UInt8)) (ptrs : List Nat) : List (Nat × Nat) :=
  [(esp, 4), (esp + 4, 4), (esp + 8, 4), (array, 4 * (ptrs.length + 1))] ++ strings argv ptrs

structure Decodes (vm : Vm) (d sz esp array : Nat) (argv : List (List UInt8)) (ptrs : List Nat) :
    Prop where
  returnPc : vm.loadWord d esp = some 0xffffffff
  argc : vm.loadWord d (esp + 4) = some argv.length
  pointer : vm.loadWord d (esp + 8) = some array
  pointers : ∀ i p, ptrs[i]? = some p → vm.loadWord d (array + 4 * i) = some p
  null : vm.loadWord d (array + 4 * ptrs.length) = some 0
  aligned : ∀ p ∈ ptrs, p % 4 = 0
  copies : HoldsAll vm d argv ptrs
  disjoint : (objects esp array argv ptrs).Pairwise Apart
  inside : ∀ x ∈ objects esp array argv ptrs, sz - pgsize ≤ x.1 ∧ x.1 + x.2 ≤ sz

theorem strings_within (argv : List (List UInt8)) : ∀ {sp : Nat}, Unwrapped sp argv →
    ∀ x ∈ strings argv (pushedAt sp argv), lowest sp argv ≤ x.1 ∧ x.1 + x.2 ≤ sp := by
  induction argv with
  | nil => nofun
  | cons arg argv ih =>
    intro sp ⟨hfits, hwrap⟩ x hx
    have hdown : pushDown sp arg + (arg.length + 1) ≤ sp := by
      unfold pushDown
      omega
    rcases List.mem_cons.mp hx with rfl | hx
    · exact ⟨lowest_le argv _, hdown⟩
    · obtain ⟨hle, hend⟩ := ih hwrap x hx
      exact ⟨hle, by omega⟩

theorem strings_apart (argv : List (List UInt8)) : ∀ {sp : Nat}, Unwrapped sp argv →
    (strings argv (pushedAt sp argv)).Pairwise Apart := by
  induction argv with
  | nil => exact fun _ => .nil
  | cons arg argv ih =>
    intro sp ⟨_, hwrap⟩
    exact .cons (fun x hx => .inr (strings_within argv hwrap x hx).2) (ih hwrap)

theorem pushedAt_aligned (argv : List (List UInt8)) : ∀ sp, ∀ p ∈ pushedAt sp argv, p % 4 = 0 := by
  induction argv with
  | nil => nofun
  | cons arg argv ih =>
    intro sp p hp
    rcases List.mem_cons.mp hp with rfl | hp
    · exact Nat.mul_mod_left _ 4
    · exact ih _ p hp

theorem pushedAt_lt (argv : List (List UInt8)) : ∀ sp, ∀ p ∈ pushedAt sp argv, p ≤ sp := by
  induction argv with
  | nil => nofun
  | cons arg argv ih =>
    intro sp p hp
    rcases List.mem_cons.mp hp with rfl | hp
    · exact pushDown_le sp arg
    · exact (ih _ p hp).trans (pushDown_le sp arg)

theorem frame_decodes {argv : List (List UInt8)} {sz : Nat} (hsz : sz < 2 ^ 32)
    (hwrap : Unwrapped sz argv) (hmax : argv.length ≤ maxarg)
    (hroom : sz - pgsize + 4 * (argv.length + 4) ≤ lowest sz argv)
    (hframe : Holds vm d (lowest sz argv - 4 * (argv.length + 4))
      ((frameWords (pushedAt sz argv) (lowest sz argv)).flatMap wordBytes))
    (hall : HoldsAll vm d argv (pushedAt sz argv)) :
    Decodes vm d sz (lowest sz argv - 4 * (argv.length + 4))
      (lowest sz argv - 4 * (argv.length + 1)) argv (pushedAt sz argv) := by
  have hlen := pushedAt_length argv sz
  have hle := lowest_le argv sz
  have harray : lowest sz argv - 4 * (argv.length + 1) =
      lowest sz argv - 4 * (argv.length + 4) + 12 := by omega
  have hlowest : lowest sz argv - 4 * (argv.length + 4) + 12 + 4 * (argv.length + 1) =
      lowest sz argv := by omega
  have hwords : frameWords (pushedAt sz argv) (lowest sz argv) =
      0xffffffff :: argv.length :: (lowest sz argv - 4 * (argv.length + 4) + 12) ::
        (pushedAt sz argv ++ [0]) := by
    rw [frameWords, hlen, harray]
    rfl
  rw [hwords] at hframe
  rw [harray]
  generalize lowest sz argv - 4 * (argv.length + 4) = esp at *
  refine ⟨hframe.words (i := 0) rfl (by decide), hframe.words (i := 1) rfl ?_,
    hframe.words (i := 2) rfl (by omega), fun i p hp => ?_, ?_, pushedAt_aligned argv sz, hall,
    ?_, ?_⟩
  · simp only [maxarg] at hmax
    omega
  · have hp' : (0xffffffff :: argv.length :: (esp + 12) :: (pushedAt sz argv ++ [0]))[i + 3]? =
        some p := by
      rw [List.getElem?_cons_succ, List.getElem?_cons_succ, List.getElem?_cons_succ,
        List.getElem?_append_left (List.getElem?_eq_some_iff.mp hp).1, hp]
    have hlt := pushedAt_lt argv sz p (List.mem_of_getElem? hp)
    rw [← hframe.words hp' (by omega)]
    congr 1
    omega
  · have hp' : (0xffffffff :: argv.length :: (esp + 12) ::
        (pushedAt sz argv ++ [0]))[(pushedAt sz argv).length + 3]? = some 0 := by
      rw [List.getElem?_cons_succ, List.getElem?_cons_succ, List.getElem?_cons_succ,
        List.getElem?_append_right le_rfl, Nat.sub_self]
      rfl
    rw [← hframe.words hp' (by decide)]
    congr 1
    omega
  · refine List.pairwise_append.mpr ⟨?_, strings_apart argv hwrap, fun x hx y hy => .inl ?_⟩
    · simp [Apart]
    · have hle := (strings_within argv hwrap y hy).1
      simp only [List.mem_cons, List.not_mem_nil, or_false] at hx
      rcases hx with rfl | rfl | rfl | rfl <;> dsimp only <;> omega
  · intro x hx
    rcases List.mem_append.mp hx with hx | hx
    · simp only [List.mem_cons, List.not_mem_nil, or_false] at hx
      rcases hx with rfl | rfl | rfl | rfl <;> dsimp only <;> omega
    · obtain ⟨hlow, hhigh⟩ := strings_within argv hwrap x hx
      exact ⟨by omega, hhigh⟩

theorem Frees.peek {old : Nat} (hf : Frees L old vm vm' role role') (hd : role d = .dir)
    (hold : role old = .dir) (hne : d ≠ old) (h : Ok L vm role) (hr : Releases vm vm')
    (ha : a < kernbase) : vm'.peek d a = vm.peek d a := by
  rw [Vm.peek, Vm.peek, (hf.dirs d hne hd).2]
  cases he : vm.page d (a / pgsize) with
  | none => rfl
  | some e =>
    have hw : a / pgsize < 2 ^ 19 := by
      simp only [pgsize, kernbase] at *
      omega
    have hframe := h.role_page hd hw he
    have hnot : ¬ Belongs old (.frame d (a / pgsize)) := by
      rintro (hb | ⟨_, hb⟩ | ⟨_, hb⟩) <;> cases hb
      exact hne rfl
    have hpage : e.page ≠ old := by
      rintro rfl
      rw [hold] at hframe
      cases hframe
    have hkept := hf.kept e.page hpage (hframe ▸ hnot)
    dsimp only
    rw [hr.data e.page (by rw [hf.exact.ok.free, hkept, hframe]; nofun)]

end Vm

open Vm

variable {L : Layout} {vm vm' : Vm} {role : Nat → Role} {proc : Image}

structure Loaded (L : Layout) (vm : Vm) (file : List UInt8) (elf : Elfhdr) (d sz : Nat) (vm' : Vm) :
    Prop where
  header : readElfhdr file = some elf
  loads : ∃ vm₁ vm₂ stores sz₀, vm.setupkvm L = .ok (vm₁, some d) ∧
    loadSegments L d file elf.phnum vm₁ [] elf.phoff 0 = .ok (vm₂, stores, some sz₀) ∧
    vm₂.makeStack L d sz₀ = .ok (vm', some sz)
  memory : (vm'.page d (pages sz - 1)).isSome

-- The strings and argc + 4 words fit in the page below `sz`.
def StackRoom (sz : Nat) (argv : List (List UInt8)) : Prop :=
  sz - pgsize + 4 * (argv.length + 4) ≤ lowest sz argv

theorem Loaded.stackSpace {file : List UInt8} {elf : Elfhdr} {d sz : Nat}
    (hload : Loaded L vm file elf d sz vm') (h : Exact L vm role) (hfile : file.length < 2 ^ 32) :
    ∃ base role', Loses role base ∧ StackSpace L d (pages sz) sz vm vm' base role' := by
  obtain ⟨vm₁, vm₂, stores, sz₀, hsetup, hsegs, hmake⟩ := hload.loads
  rcases setupkvm_cases h with ⟨vm₁', role₁, d', hsetup', hnew⟩ | ⟨_, vm₁', hsetup'⟩
  · rw [hsetup] at hsetup'
    cases hsetup'
    have hfresh := h.freshDir hnew.free
    have hsegs' : LoadsAll L d file elf.phnum elf.phoff _ vm role
        (loadSegments L d file elf.phnum vm₁ [] elf.phoff 0) :=
      loadSegments_spec hfile elf.phnum [] hfresh hnew.space nofun
    rw [hsegs] at hsegs'
    generalize hr : Except.ok (vm₂, stores, some sz₀) = r at hsegs'
    cases hsegs' with
    | fault _ => cases hr
    | done hst hb hiff =>
      rename_i vm₂' role₂ role₂' stores' final
      cases final with
      | none => cases hr
      | some s₁ =>
        cases hr
        obtain ⟨vm₃, role₃, role₃', r, hmake', hstack⟩ := makeStack_spec (hb.space s₁ rfl)
          (hfresh.loses hb.loses)
        rw [hmake] at hmake'
        cases r with
        | none => cases hmake'
        | some s₂ =>
          cases hmake'
          have hss := hstack.space s₂ rfl
          refine ⟨role₃, role₃', hb.loses.trans hstack.loses, ?_⟩
          rcases hss.whole with hw | ⟨hw, _⟩
          · rwa [hw] at hss
          · have hnone := hss.above s₂.mapped (by
              have := pages_le (hss.size.choose_spec.2).le
              omega) le_rfl
            have hsome := hload.memory
            rw [show pages s₂.sz - 1 = s₂.mapped by omega, hnone] at hsome
            cases hsome
  · rw [hsetup] at hsetup'
    cases hsetup'

section

variable {file : List UInt8} {elf : Elfhdr} {d sz : Nat}

def stackImage (vm : Vm) (d sz : Nat) (argv : List (List UInt8)) :=
  pushArgs d argv vm [] sz >>= fun x => match x.2 with
    | none => .ok (x.1, none)
    | some (args, sp) => x.1.pushFrame d args sp

theorem exec_loaded (proc : Image) (path : List UInt8) (argv : List (List UInt8))
    (hload : Loaded L vm file elf d sz vm') : ∃ stores : List Store,
    (∀ vm₂ vm₃, stackImage vm' d sz argv = .ok (vm₂, none) → vm₂.freevm L d = .ok vm₃ →
      exec L vm proc (some file) path argv = .ok ⟨vm₃, proc, -1, stores⟩) ∧
    ∀ vm₂ vm₃ sp, stackImage vm' d sz argv = .ok (vm₂, some sp) → vm₂.freevm L proc.pgdir = .ok vm₃ →
      exec L vm proc (some file) path argv =
        .ok ⟨vm₃, ⟨d, sz, elf.entry, sp, programName path⟩, 0, stores⟩ := by
  obtain ⟨vm₁, vm₂, stores, sz₀, hsetup, hsegs, hmake⟩ := hload.loads
  refine ⟨stores, ?_⟩
  have hbuild : ∀ vm₃ sp, stackImage vm' d sz argv = .ok (vm₃, sp) →
      vm₁.buildImage L d file elf argv = .ok (vm₃, stores, sp.map fun sp => (sz, sp)) := by
    intro vm₃ sp himage
    rw [stackImage] at himage
    rw [buildImage, hsegs, bind_ok rfl]
    dsimp only
    rw [bind_ok hmake]
    dsimp only
    cases hpush : pushArgs d argv vm' [] sz with
    | error e =>
      rw [bind_error hpush] at himage
      cases himage
    | ok x =>
      obtain ⟨vm₄, args⟩ := x
      rw [bind_ok hpush] at himage
      rw [bind_ok rfl]
      cases args with
      | none =>
        cases himage
        rfl
      | some args =>
        dsimp only at himage ⊢
        rw [bind_ok himage]
  simp only [exec, Option.bind_some, hload.header, Option.map_some]
  refine ⟨fun vm₃ vm₄ himage hfree => ?_, fun vm₃ vm₄ sp himage hfree => ?_⟩
  · rw [lift_ok hsetup]
    dsimp only
    rw [bind_ok (hbuild vm₃ none himage)]
    dsimp only [Option.map_none]
    rw [lift_ok hfree]
  · rw [lift_ok hsetup]
    dsimp only
    rw [bind_ok (hbuild vm₃ (some sp) himage)]
    dsimp only [Option.map_some]
    rw [lift_ok hfree]

theorem exec_arguments_decode (proc : Image) (path : List UInt8) (argv : List (List UInt8))
    (h : Runs L vm role proc.pgdir) (hfile : file.length < 2 ^ 32)
    (hload : Loaded L vm file elf d sz vm') (hmax : argv.length ≤ maxarg)
    (hwrap : Unwrapped sz argv) :
    ∃ r, exec L vm proc (some file) path argv = .ok r ∧ (r.ret = 0 ↔ StackRoom sz argv) ∧
      (r.ret = 0 ∨ r.ret = -1) ∧
      (r.ret = 0 → r.proc.pgdir = d ∧ r.proc.sz = sz ∧
        ∃ array ptrs, Decodes r.vm d sz r.proc.esp array argv ptrs) := by
  obtain ⟨base, role', hloses, hstack⟩ := hload.stackSpace h.exact hfile
  obtain ⟨stores, hbad, hdone⟩ := exec_loaded proc path argv hload
  rw [stackImage] at hbad hdone
  have hlen := pushedAt_length argv sz
  have hlt : sz < kernbase := hstack.size.choose_spec.2
  have hgiveUp : ∀ {vm₂ : Vm}, SameTables vm' vm₂ → ∃ vm₃, vm₂.freevm L d = .ok vm₃ := by
    intro vm₂ hs
    have hdis := (hstack.same hs).discardable
    obtain ⟨vm₃, _, hfree, _⟩ := freevm_acts hdis.acts.exact
      (hdis.acts.dir (Function.update_self ..)) hdis.stacked
    exact ⟨vm₃, hfree⟩
  rcases pushArgs_holds hstack argv [] (.refl vm') hwrap (by simpa using hmax)
    (Nat.sub_le _ _) le_rfl with ⟨hlow, vm₂, hpush, hs₂, _, hall⟩ | ⟨hlow, vm₂, hpush, hs₂⟩
  · rw [bind_ok hpush, List.nil_append] at hbad hdone
    rcases pushFrame_holds hstack hs₂ (show (pushedAt sz argv).length ≤ maxarg by omega) hlow
      (lowest_le argv sz) with ⟨hroom, vm₃, hframe, hcopied⟩ | ⟨hroom, vm₃, hframe, hs₃⟩
    · obtain ⟨hne, hold, vm₄, role₄, hfree, hfrees⟩ := h.release hloses (hstack.same hcopied.same)
      have hstack₃ := hstack.same hcopied.same
      have hpeek : ∀ a < sz, vm₄.peek d a = vm₃.peek d a := fun a ha =>
        hfrees.peek hstack₃.dir hold hne hstack₃.acts.exact.ok (freevm_releases hfree) (by omega)
      have hle := lowest_le argv sz
      rw [hlen] at hroom hframe hcopied
      refine ⟨_, hdone vm₃ vm₄ _ hframe hfree, iff_of_true rfl hroom, .inl rfl,
        fun _ => ⟨rfl, rfl, _, _, frame_decodes (by simp only [kernbase] at hlt; omega) hwrap hmax
          hroom ?_ ?_⟩⟩
      · refine hcopied.holds.congr fun i hi => hpeek _ ?_
        rw [flatMap_wordBytes, frameWords_length, hlen] at hi
        omega
      · refine HoldsAll.congr argv hwrap hall fun a hlow' ha => ?_
        rw [hpeek a (by omega), hcopied.frame a]
        rw [flatMap_wordBytes, frameWords_length, hlen]
        omega
    · obtain ⟨vm₄, hfree⟩ := hgiveUp hs₃
      rw [hlen] at hroom
      exact ⟨_, hbad vm₃ vm₄ hframe hfree, iff_of_false (by simp) (by unfold StackRoom; omega),
        .inr rfl, by simp⟩
  · rw [bind_ok hpush] at hbad
    obtain ⟨vm₃, hfree⟩ := hgiveUp hs₂
    exact ⟨_, hbad vm₂ vm₃ rfl hfree, iff_of_false (by simp) (by unfold StackRoom; omega),
      .inr rfl, by simp⟩

end

theorem oneSegment_fits (rest : Loading → Prop) :
    SegmentsFit (oneSegment 0) Loading.Any rest 1 52 ⟨0, 0, 7870⟩ ↔ rest ⟨16, 1, 7868⟩ := by
  have hph : readProghdr (oneSegment 0) 52 = some ⟨1, 0, 0, 4, 16⟩ := by decide +kernel
  have hgrow : Loading.grow ⟨0, 0, 7870⟩ 16 = some ⟨16, 1, 7868⟩ := by decide +kernel
  rw [SegmentsFit]
  simp only [hph]
  rw [if_neg (by decide), if_neg (by decide)]
  change (True ∧ ∀ s' ∈ Loading.grow ⟨0, 0, 7870⟩ 16, _) ↔ _
  rw [hgrow]
  constructor
  · rintro ⟨_, h⟩
    exact (h _ rfl (by decide)).2 ⟨by decide, .inr (by decide)⟩
  · refine fun h => ⟨trivial, ?_⟩
    rintro s ⟨⟩ _
    exact ⟨⟨by decide, .inl (by decide)⟩, fun _ => h⟩

theorem oneSegment_loaded : ∃ vm role pgdir elf d vm', Runs Kernel.smallLayout vm role pgdir ∧
    Loaded Kernel.smallLayout vm (oneSegment 0) elf d 12288 vm' := by
  obtain ⟨vm, role, pgdir, hruns, hlen⟩ := runs_boot
  have helf : readElfhdr (oneSegment 0) = some ⟨elfMagic, 0, 52, 1⟩ := by decide +kernel
  obtain ⟨vm₁, role₁, d, hsetup, hnew⟩ := setupkvm_acts hruns.exact (by omega)
  have hfresh := hruns.exact.freshDir hnew.free
  have hspace := hnew.space
  rw [hlen] at hspace
  have hsegs : LoadsAll Kernel.smallLayout d (oneSegment 0) 1 52 ⟨0, 0, 7870⟩ vm role
      (loadSegments Kernel.smallLayout d (oneSegment 0) 1 vm₁ [] 52 0) :=
    loadSegments_spec (show (oneSegment 0).length < 2 ^ 32 by decide) 1 [] hfresh hspace nofun
  generalize hr : loadSegments Kernel.smallLayout d (oneSegment 0) 1 vm₁ [] 52 0 = r at hsegs
  cases hsegs with
  | fault hno => exact absurd ((oneSegment_fits fun _ => True).mpr trivial) (hno _)
  | done hst hb hiff =>
    rename_i vm₂ role₂ role₂' stores final
    cases final with
    | none =>
      exact absurd ((oneSegment_fits fun _ => False).mp ((hiff _).mpr nofun)) id
    | some s =>
      obtain rfl : s = ⟨16, 1, 7868⟩ := (hiff (· = ⟨16, 1, 7868⟩)).mp
        ((oneSegment_fits _).mpr rfl) s rfl
      have hgrow : Loading.grow ⟨4096, 1, 7868⟩ 12288 = some ⟨12288, 3, 7866⟩ := by decide +kernel
      obtain ⟨vm₃, role₃, role₃', halloc, hbuilt⟩ := ((hb.space _ rfl).round (by decide)).alloc
        (hfresh.loses hb.loses) (show 12288 < kernbase by decide)
      change vm₂.allocuvm Kernel.smallLayout d 4096 12288 =
        .ok (vm₃, (Loading.grow ⟨4096, 1, 7868⟩ 12288).elim 0 Loading.sz) at halloc
      change Built _ _ _ _ _ _ _ _ (Loading.grow ⟨4096, 1, 7868⟩ 12288) at hbuilt
      rw [hgrow] at halloc hbuilt
      have hguard : uint (12288 + (2 ^ 32 - 2 * pgsize)) = 1 * pgsize := by decide
      obtain ⟨vm₄, hclear, hstack⟩ := clearpteu_spec (k := 1) (hbuilt.space _ rfl) rfl
      refine ⟨vm, role, pgdir, _, d, vm₄, hruns, helf, ⟨vm₁, vm₂, stores, 16, hsetup, hr, ?_⟩, ?_⟩
      · have hsz : vm₂.allocuvm Kernel.smallLayout d 4096 12288 = .ok (vm₃, 12288) := halloc
        unfold makeStack
        dsimp only
        change (lift (vm₂.allocuvm Kernel.smallLayout d 4096 12288) >>= _) = _
        rw [lift_ok hsz]
        dsimp only
        rw [if_neg (by decide), hguard, bind_ok hclear]
      · obtain ⟨q, hq⟩ := hstack.last (by decide)
        rw [hq]
        rfl

theorem exec_arguments_decode_x : ∃ vm proc elf d vm' r,
    Loaded Kernel.smallLayout vm (oneSegment 0) elf d 12288 vm' ∧
      exec Kernel.smallLayout vm proc (some (oneSegment 0)) [] [[120]] = .ok r ∧ r.ret = 0 ∧
      ∃ array ptrs, Decodes r.vm d 12288 r.proc.esp array [[120]] ptrs := by
  obtain ⟨vm, role, pgdir, elf, d, vm', hruns, hload⟩ := oneSegment_loaded
  obtain ⟨r, hexec, hret, _, hdecodes⟩ := exec_arguments_decode ⟨pgdir, 4096, 0, 0, []⟩ []
    [[120]] hruns (by decide) hload (by decide) ⟨by decide, trivial⟩
  have hzero := hret.mpr (show StackRoom 12288 [[120]] by unfold StackRoom; decide)
  exact ⟨vm, _, elf, d, vm', r, hload, hexec, hzero, (hdecodes hzero).2.2⟩

end Xv6
