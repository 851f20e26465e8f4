import Mathlib.Data.List.Chain
import Mathlib.Tactic

namespace LinkedRing

variable {A : Type} [DecidableEq A]

structure Links (A : Type) where
  next : A → A
  prev : A → A

namespace Links

def setNext (L : Links A) (a b : A) : Links A := { L with next := Function.update L.next a b }

def setPrev (L : Links A) (a b : A) : Links A := { L with prev := Function.update L.prev a b }

def Joined (L : Links A) (a b : A) : Prop := L.next a = b ∧ L.prev b = a

def unlink (L : Links A) (b : A) : Links A :=
  let L := L.setPrev (L.next b) (L.prev b)
  L.setNext (L.prev b) (L.next b)

def insert (L : Links A) (h b : A) : Links A :=
  let L := L.setNext b (L.next h)
  let L := L.setPrev b h
  let L := L.setPrev (L.next h) b
  L.setNext h b

structure Ring (L : Links A) (h : A) (l : List A) : Prop where
  chain : List.IsChain L.Joined (h :: l ++ [h])
  nodup : (h :: l).Nodup

omit [DecidableEq A] in
theorem chain_congr {L K : Links A} {l : List A} (hl : List.IsChain L.Joined l)
    (hn : ∀ x ∈ l.dropLast, K.next x = L.next x) (hp : ∀ y ∈ l.tail, K.prev y = L.prev y) :
    List.IsChain K.Joined l := by
  induction l with
  | nil => exact .nil
  | cons a l ih =>
    cases l with
    | nil => exact .singleton a
    | cons b l =>
      rw [List.isChain_cons_cons] at hl ⊢
      refine ⟨⟨?_, ?_⟩, ih hl.2 (fun x hx => hn x ?_) fun y hy => hp y ?_⟩
      · rw [hn a (by simp)]
        exact hl.1.1
      · rw [hp b (by simp)]
        exact hl.1.2
      · rw [List.dropLast_cons_cons]
        exact List.mem_cons_of_mem a hx
      · exact List.mem_of_mem_tail hy

theorem ring_nil (L : Links A) (h : A) : Ring ((L.setPrev h h).setNext h h) h [] := by
  refine ⟨?_, by simp⟩
  simp [Joined, setNext, setPrev]

theorem insert_next (L : Links A) {h b x : A} :
    (L.insert h b).next x = if x = h then b else if x = b then L.next h else L.next x := by
  simp only [insert, setNext, setPrev, Function.update_apply]

theorem insert_prev (L : Links A) {h b x : A} (hb : b ≠ h) :
    (L.insert h b).prev x = if x = L.next h then b else if x = b then h else L.prev x := by
  simp only [insert, setNext, setPrev, Function.update_apply, if_neg (Ne.symm hb)]

theorem unlink_next (L : Links A) {b x : A} (hb : L.next b ≠ b) :
    (L.unlink b).next x = if x = L.prev b then L.next b else L.next x := by
  simp only [unlink, setNext, setPrev, Function.update_apply, if_neg (Ne.symm hb)]

theorem unlink_prev (L : Links A) {b x : A} :
    (L.unlink b).prev x = if x = L.next b then L.prev b else L.prev x := by
  simp only [unlink, setNext, setPrev, Function.update_apply]

omit [DecidableEq A] in
theorem Ring.first {L : Links A} {h : A} {l : List A} (hr : L.Ring h l) :
    ∃ q post, l ++ [h] = q :: post ∧ L.Joined h q ∧ (q :: post).IsChain L.Joined ∧
      (q :: post).Nodup := by
  obtain ⟨q, post, hq⟩ : ∃ q post, l ++ [h] = q :: post := by cases l <;> simp
  have hch := hr.chain
  have hnd := hr.nodup
  rw [List.cons_append, hq, List.isChain_cons_cons] at hch
  refine ⟨q, post, hq, hch.1, hch.2, ?_⟩
  rw [← hq]
  exact List.nodup_append_comm.mp (by simpa using hnd)

theorem ring_insert {L : Links A} {h b : A} {l : List A} (hr : L.Ring h l) (hb : b ∉ h :: l) :
    (L.insert h b).Ring h (b :: l) := by
  obtain ⟨q, post, hq, hjoin, hchain, hnd⟩ := hr.first
  have hbh : b ≠ h := fun he => hb (by simp [he])
  have hbmem : b ∉ q :: post := by
    rw [← hq]
    simpa [and_comm] using hb
  have hlast : (q :: post).dropLast = l := by rw [← hq, List.dropLast_concat]
  have hqb : q ≠ b := fun he => hbmem (by simp [he])
  refine ⟨?_, ?_⟩
  · rw [List.cons_append, List.cons_append, hq, List.isChain_cons_cons, List.isChain_cons_cons]
    refine ⟨⟨?_, ?_⟩, ⟨?_, ?_⟩, chain_congr hchain (fun x hx => ?_) fun y hy => ?_⟩
    · rw [insert_next L, if_pos rfl]
    · rw [insert_prev L hbh, hjoin.1, if_neg hqb.symm, if_pos rfl]
    · rw [insert_next L, if_neg hbh, if_pos rfl, hjoin.1]
    · rw [insert_prev L hbh, hjoin.1, if_pos rfl]
    · rw [hlast] at hx
      have hxh : x ≠ h := fun he => (List.nodup_cons.mp hr.nodup).1 (he ▸ hx)
      have hxb : x ≠ b := fun he => hb (by simp [← he, hx])
      rw [insert_next L, if_neg hxh, if_neg hxb]
    · have hyq : y ≠ q := fun he => (List.nodup_cons.mp hnd).1 (he ▸ hy)
      have hyb : y ≠ b := fun he => hbmem (List.mem_cons_of_mem q (he ▸ hy))
      rw [insert_prev L hbh, hjoin.1, if_neg hyq, if_neg hyb]
  · have hperm : (h :: b :: l).Perm (b :: h :: l) := List.Perm.swap b h l
    exact hperm.nodup_iff.mpr (List.nodup_cons.mpr ⟨hb, hr.nodup⟩)

theorem ring_insert_all {L : Links A} {h : A} {l bs : List A} (hr : L.Ring h l) (hbs : bs.Nodup)
    (hb : ∀ b ∈ bs, b ∉ h :: l) : (bs.foldl (fun L b => L.insert h b) L).Ring h (bs.reverse ++ l) := by
  induction bs generalizing L l with
  | nil => exact hr
  | cons b bs ih =>
    rw [List.foldl_cons, List.reverse_cons, List.append_assoc]
    refine ih (ring_insert hr (hb b (by simp))) hbs.of_cons fun c hc => ?_
    have hcb : c ≠ b := fun he => (List.nodup_cons.mp hbs).1 (he ▸ hc)
    have hcl := hb c (by simp [hc])
    simp only [List.singleton_append, List.mem_cons, not_or] at hcl ⊢
    exact ⟨hcl.1, hcb, hcl.2⟩

theorem ring_unlink {L : Links A} {h b : A} {l₁ l₂ : List A} (hr : L.Ring h (l₁ ++ b :: l₂)) :
    (L.unlink b).Ring h (l₁ ++ l₂) := by
  obtain ⟨pre, p, hp⟩ : ∃ pre p, h :: l₁ = pre ++ [p] := by
    simpa using List.eq_nil_or_concat (h :: l₁)
  obtain ⟨q, post, hq⟩ : ∃ q post, l₂ ++ [h] = q :: post := by cases l₂ <;> simp
  have hch : (pre ++ [p] ++ b :: q :: post).IsChain L.Joined := by
    rw [← hp, ← hq]
    simpa using hr.chain
  simp only [List.append_assoc, List.singleton_append, List.isChain_append_cons_cons,
    List.isChain_cons_cons] at hch
  obtain ⟨hpre, hpb, hbq, hpost⟩ := hch
  have hnd : (h :: l₁ ++ b :: l₂).Nodup := by simpa using hr.nodup
  obtain ⟨hnd₁, hnd₂, hdis⟩ := List.nodup_append.mp hnd
  obtain ⟨hb₂, hnd₂⟩ := List.nodup_cons.mp hnd₂
  have hl₂ : (q :: post).dropLast = l₂ := by rw [← hq, List.dropLast_concat]
  have hmemq : ∀ x, x ∈ q :: post → x ∈ l₂ ∨ x = h := by
    intro x hx
    rw [← hq] at hx
    simpa using hx
  have hh₂ : h ∉ l₂ := fun hh => hdis h (by simp) h (by simp [hh]) rfl
  have hndq : (q :: post).Nodup := by
    rw [← hq]
    exact List.nodup_append_comm.mp (List.nodup_cons.mpr ⟨hh₂, hnd₂⟩)
  have hqb : q ≠ b := by
    rintro rfl
    rcases hmemq q (by simp) with hx | rfl
    · exact hb₂ hx
    · exact hdis q (by simp) q (by simp) rfl
  have hnext : ∀ x, (L.unlink b).next x = if x = p then q else L.next x := by
    intro x
    rw [unlink_next L (by rw [hbq.1]; exact hqb), hbq.1, hpb.2]
  have hprev : ∀ x, (L.unlink b).prev x = if x = q then p else L.prev x := by
    intro x
    rw [unlink_prev, hbq.1, hpb.2]
  refine ⟨?_, ?_⟩
  · have heq : h :: (l₁ ++ l₂) ++ [h] = pre ++ [p] ++ q :: post := by
      rw [← hp, ← hq]
      simp
    rw [heq, List.append_assoc, List.singleton_append, List.isChain_append_cons_cons]
    refine ⟨chain_congr hpre (fun x hx => ?_) (fun y hy => ?_), ⟨?_, ?_⟩,
      chain_congr hpost (fun x hx => ?_) fun y hy => ?_⟩
    · rw [List.dropLast_concat] at hx
      have hxp : x ≠ p := by
        rw [hp] at hnd₁
        exact fun he => (List.nodup_append.mp hnd₁).2.2 x hx p (by simp) he
      rw [hnext, if_neg hxp]
    · rw [← hp, List.tail_cons] at hy
      have hyq : y ≠ q := by
        rintro rfl
        rcases hmemq y (by simp) with hx | rfl
        · exact hdis y (by simp [hy]) y (by simp [hx]) rfl
        · exact (List.nodup_cons.mp hnd₁).1 hy
      rw [hprev, if_neg hyq]
    · rw [hnext, if_pos rfl]
    · rw [hprev, if_pos rfl]
    · rw [hl₂] at hx
      have hxp : x ≠ p := by
        rintro rfl
        exact hdis x (by simp [hp]) x (by simp [hx]) rfl
      rw [hnext, if_neg hxp]
    · have hyq : y ≠ q := fun he => (List.nodup_cons.mp hndq).1 (he ▸ hy)
      rw [hprev, if_neg hyq]
  · exact hr.nodup.sublist (by simp)

omit [DecidableEq A] in
theorem Ring.reverse {L : Links A} {h : A} {l : List A} (hr : L.Ring h l) :
    Ring ⟨L.prev, L.next⟩ h l.reverse := by
  refine ⟨?_, by simpa using hr.nodup⟩
  have hrev : h :: l.reverse ++ [h] = (h :: l ++ [h]).reverse := by simp
  rw [hrev, List.isChain_reverse]
  exact hr.chain.imp fun a b hab => ⟨hab.2, hab.1⟩

end Links

variable (f : A → A) (h : A) (P : A → Bool)

def scan : Nat → A → Option (Option A)
  | 0, _ => none
  | k + 1, a => if a = h then some none else if P a then some (some a) else scan k (f a)

variable {f h P}

theorem scan_chain {L : Links A} {a : A} {l : List A} {k : Nat}
    (hc : (a :: l ++ [h]).IsChain L.Joined) (hn : h ∉ l) (hk : l.length < k) :
    scan L.next h P k (L.next a) = some (l.find? P) := by
  induction l generalizing a k with
  | nil =>
    obtain ⟨k, rfl⟩ := Nat.exists_eq_add_of_lt hk
    simp only [List.cons_append, List.nil_append, List.isChain_cons_cons] at hc
    simp [scan, hc.1.1]
  | cons b l ih =>
    obtain ⟨k, rfl⟩ := Nat.exists_eq_succ_of_ne_zero (Nat.ne_zero_of_lt hk)
    rw [List.cons_append, List.cons_append, List.isChain_cons_cons] at hc
    simp only [List.mem_cons, not_or] at hn
    rw [scan, hc.1.1, if_neg (Ne.symm hn.1), List.find?_cons]
    cases hP : P b with
    | true => simp
    | false =>
      simp only [Bool.false_eq_true, if_false]
      exact ih hc.2 hn.2 (by simpa using hk)

theorem scan_next {L : Links A} {l : List A} (hr : L.Ring h l) {k : Nat} (hk : l.length < k) :
    scan L.next h P k (L.next h) = some (l.find? P) :=
  scan_chain hr.chain (List.nodup_cons.mp hr.nodup).1 hk

theorem scan_prev {L : Links A} {l : List A} (hr : L.Ring h l) {k : Nat} (hk : l.length < k) :
    scan L.prev h P k (L.prev h) = some (l.reverse.find? P) :=
  scan_next hr.reverse (by simpa using hk)

end LinkedRing
