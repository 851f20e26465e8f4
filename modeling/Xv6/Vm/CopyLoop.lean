import Xv6.Vm.Conserve

namespace Xv6
namespace Vm

variable {L : Layout} {vm vm' vm'' : Vm} {role role' role'' : Nat → Role} {s d v k m p : Nat}

def bytesAt (vm : Vm) (d w : Nat) : Nat → UInt8 :=
  ((vm.page d w).map fun e => vm.data e.page).getD fun _ => 0

theorem Fills.congr {bytes bytes' : Nat → Nat → UInt8}
    (h : Fills L d v k bytes vm vm' role role')
    (hb : ∀ w, v ≤ w → w < v + k → bytes' w = bytes w) :
    Fills L d v k bytes' vm vm' role role' := by
  refine { h with inside := fun w hw hwk => ?_ }
  rw [hb w hw hwk]
  exact h.inside w hw hwk

theorem Allocates.bytesAt {w : Nat} (ha : Allocates vm vm') (h : Ok L vm role)
    (hs : role s = .dir) (hw : w < 2 ^ 19) (hpage : vm'.page s w = vm.page s w) :
    vm'.bytesAt s w = vm.bytesAt s w := by
  rw [Vm.bytesAt, Vm.bytesAt, hpage]
  cases he : vm.page s w with
  | none => rfl
  | some e => exact ha.data e.page (h.page_not_free hs hw he)

inductive CopyEnds (L : Layout) (s d v k : Nat) (vm : Vm) (role : Nat → Role) :
    Except Panic (Vm × Bool) → Prop
  | missing {m : Nat} {e : Panic} (hm : m < k) (hpage : vm.page s (v + m) = none)
      (hroom : demand (vm.present d) v m ≤ vm.freelist.length) :
      CopyEnds L s d v k vm role (.error e)
  | short {m : Nat} {vm' : Vm} {role' : Nat → Role} (hm : m < k)
      (hf : Fills L d v m (vm.bytesAt s) vm vm' role role') (hnil : vm'.freelist = []) :
      CopyEnds L s d v k vm role (.ok (vm', false))
  | starved {m p : Nat} {vm' vm'' : Vm} {role' : Nat → Role} (hm : m < k)
      (hf : Fills L d v m (vm.bytesAt s) vm vm' role role') (htook : Took L vm' vm'' role' p)
      (habs : vm'.present d ((v + m) / 1024) = false) (hnil : vm''.freelist = [])
      (hsrc : ∀ w, v ≤ w → w ≤ v + m → vm.page s w ≠ none) :
      CopyEnds L s d v k vm role (.ok (vm'', false))
  | whole {vm' : Vm} {role' : Nat → Role}
      (hf : Fills L d v k (vm.bytesAt s) vm vm' role role')
      (hsrc : ∀ w, v ≤ w → w < v + k → vm.page s w ≠ none) :
      CopyEnds L s d v k vm role (.ok (vm', true))

theorem MapsUser.copies {mem : Nat} (h : Exact L vm role) (hs : role s = .dir) (hsd : s ≠ d)
    (hvm : v + m < 2 ^ 19) (hmap : MapsUser L d v mem ⟨true, true⟩ vm vm' role role')
    (ha : Allocates vm vm') (hn : Newly vm vm' mem (vm.bytesAt s v))
    (hf : Fills L d (v + 1) m (vm'.bytesAt s) vm' vm'' role' role'') :
    Fills L d v (m + 1) (vm.bytesAt s) vm vm'' role role'' :=
  hmap.fills ha hn (hf.congr fun w _ hw =>
    (ha.bytesAt h.ok hs (by omega) ((hmap.acts.dirs s hsd hs).2 w)).symm)

theorem CopyEnds.after {mem : Nat} {r : Except Panic (Vm × Bool)} (h : Exact L vm role)
    (hs : role s = .dir) (hsd : s ≠ d) (hvk : v + k < 2 ^ 19)
    (hmap : MapsUser L d v mem ⟨true, true⟩ vm vm' role role') (ha : Allocates vm vm')
    (hn : Newly vm vm' mem (vm.bytesAt s v)) (hpage : vm.page s v ≠ none)
    (hends : CopyEnds L s d (v + 1) k vm' role' r) :
    CopyEnds L s d v (k + 1) vm role r := by
  have hlen := hmap.length
  have hfirst : ∀ {P : Nat → Prop}, (∀ w, v + 1 ≤ w → P w → vm'.page s w ≠ none) →
      ∀ w, v ≤ w → P w → vm.page s w ≠ none := by
    intro P hrest w hw hP
    rcases Nat.lt_or_eq_of_le hw with hlt | rfl
    · rw [← (hmap.acts.dirs s hsd hs).2]
      exact hrest w hlt hP
    · exact hpage
  cases hends with
  | missing hm hpage hroom =>
    rw [(hmap.acts.dirs s hsd hs).2, Nat.add_right_comm, Nat.add_assoc] at hpage
    refine .missing (Nat.succ_lt_succ hm) hpage ?_
    rw [hmap.present] at hroom
    rw [demand_succ]
    omega
  | short hm hf hnil =>
    exact .short (Nat.succ_lt_succ hm) (hmap.copies h hs hsd (by omega) ha hn hf) hnil
  | starved hm hf htook habs hnil hsrc =>
    rw [Nat.add_right_comm, Nat.add_assoc] at habs
    refine .starved (Nat.succ_lt_succ hm) (hmap.copies h hs hsd (by omega) ha hn hf) htook habs hnil
      (hfirst fun w hw hle => hsrc w hw (by omega))
  | whole hf hsrc =>
    exact .whole (hmap.copies h hs hsd (by omega) ha hn hf)
      (hfirst fun w hw hlt => hsrc w hw (by omega))

theorem copyLoop_ends (hsd : s ≠ d) (k : Nat) : ∀ {vm : Vm} {role : Nat → Role} {v : Nat},
    Exact L vm role → role d = .dir → role s = .dir → v + k ≤ 2 ^ 19 →
    (∀ w < 2 ^ 19, v ≤ w → vm.page d w = none) →
    CopyEnds L s d v k vm role (copyLoop s d k vm (v * pgsize)) := by
  induction k with
  | zero =>
    intro vm role v h _ _ _ _
    exact .whole (.refl h _) fun w _ _ => by omega
  | succ k ih =>
    intro vm role v h hd hs hk hnone
    have hv : v < 2 ^ 19 := by omega
    have hnext := next_page (v := v) (by omega)
    rw [copyLoop]
    rcases page_walk vm s hv with ⟨hwalk, hpage⟩ | ⟨pt, hwalk, _, hpage⟩
    · rw [hwalk]
      exact .missing (Nat.succ_pos k) hpage (Nat.zero_le _)
    · rw [hwalk]
      cases he : vm.tables.leaf pt (v % 1024) with
      | none =>
        simp only [he]
        exact .missing (Nat.succ_pos k) (hpage.trans he) (Nat.zero_le _)
      | some e =>
        rw [he] at hpage
        simp only [he]
        cases hkalloc : vm.kalloc with
        | mk vm₁ r =>
          cases r with
          | none =>
            obtain ⟨rfl, hnil⟩ := kalloc_none hkalloc
            exact .short (Nat.succ_pos k) (.refl h _) hnil
          | some mem =>
            have htook := Took.copy h.ok (kalloc_some hkalloc)
              (Function.update vm₁.data mem (vm₁.data e.page))
            have hbytes : Function.update vm₁.data mem (vm₁.data e.page) mem = vm.bytesAt s v := by
              rw [Function.update_self, kalloc_same hkalloc, bytesAt, hpage]
              rfl
            rcases Nat.lt_or_ge vm.freelist.length (1 + absent (vm.present d) (v / 1024)) with
              hroom | hroom
            · obtain ⟨habs, hnil, hmap⟩ := htook.stuck hd hv (hnone v hv le_rfl) hroom
              simp only [hmap]
              refine .starved (Nat.succ_pos k) (.refl h _) htook habs hnil fun w hw hle => ?_
              rw [show w = v by omega, hpage]
              exact Option.some_ne_none e
            · obtain ⟨vm₂, role₂, hmap, hm, ha, hn, _⟩ := htook.newly h
                (kalloc_data hkalloc _) hd hv (hnone v hv le_rfl) hroom
              have hends := ih (v := v + 1) hm.acts.exact (hm.acts.dir hd) (hm.acts.dir hs)
                (by omega) fun w hw hvw => by
                  rw [hm.page, if_neg (by omega)]
                  exact hnone w hw (by omega)
              simp only [hmap, hnext]
              exact hends.after h hs hsd (by omega) hm ha (hbytes ▸ hn) (by rw [hpage]; exact Option.some_ne_none e)

theorem TablesFit.next {f : Nat → Bool} {free : Nat} (h : TablesFit f v k free) (hm : m < k)
    (hfree : demand f v m < free) : demand f v (m + 1) ≤ free := by
  induction k generalizing f v m free with
  | zero => omega
  | succ k ih =>
    rw [TablesFit] at h
    obtain ⟨hroom, hrest⟩ := h.resolve_left (by omega)
    have hcost : (if f (v / 1024) then 0 else 1) = absent f (v / 1024) := rfl
    cases m with
    | zero =>
      simp only [demand, hcost]
      omega
    | succ m =>
      rw [demand, hcost] at hfree ⊢
      have := ih (m := m) hrest (by omega) (by omega)
      omega

end Vm
end Xv6
